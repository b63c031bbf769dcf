import LoxLang.Proofs.Run.Valid
import LoxLang.Proofs.Run.Watch

/-!
# Sound runs

`Eval.Sound` is a triple for a watched run and the plain one: from a good heap both do the same, leave a good heap
and the environment as it was, and do not stop with a fault. The rules below are for what runs are made of.

* **`Eval.Sound.bind`** — one run after another.
* **`Eval.Sound.within`**, **`Eval.Sound.overflowAt`** — runs in another environment, and calls.

Growth of the heap is part of the triple, because a result is asked to be valid in the heap that the run leaves, and
has to stay so while other runs follow.
-/

namespace LoxLang

/-- What a run leaves: a good heap that has grown, and the environment it began in. -/
structure Machine.Leads (m m' : Machine) : Prop where
  good : m'.heap.Good
  le : m.heap.Le m'.heap
  environment : m'.environment = m.environment

/-- A machine with a good heap at a place within scopes. -/
structure Machine.At (m : Machine) (S : Scopes) : Prop where
  good : m.heap.Good
  fits : m.environment.Fits m.heap S

/-- A reason to stop that is no fault. -/
def Stop.Foreseen (stop : Stop) : Prop :=
  ∀ f, stop ≠ .fault f

/-- A watched run and the plain one agree, and what they leave is sound. -/
def Eval.Sound {α : Type} (watched plain : Eval α) (Q : Heap → α → Prop) (m : Machine) : Prop :=
  watched m = plain m ∧ m.Leads (plain m).2 ∧
    match (plain m).1 with
    | .ok a => Q (plain m).2.heap a
    | .error stop => stop.Foreseen

section

variable {m m' m'' : Machine} {S : Scopes}

theorem Machine.Leads.refl (hgood : m.heap.Good) : m.Leads m :=
  ⟨hgood, .refl _, rfl⟩

theorem Machine.Leads.trans (h : m.Leads m') (h' : m'.Leads m'') : m.Leads m'' :=
  ⟨h'.good, h.le.trans h'.le, h'.environment.trans h.environment⟩

/-- A run leaves the machine at the place in the scopes where it began. -/
theorem Machine.At.lead (h : m.At S) (hlead : m.Leads m') : m'.At S :=
  ⟨hlead.good, by rw [hlead.environment]; exact h.fits.mono hlead.le⟩

end

namespace Eval

variable {α β : Type} {m : Machine} {S : Scopes}

namespace Sound

variable {w p : Eval α} {f g : α → Eval β} {P : Heap → α → Prop} {Q : Heap → β → Prop}

/-- A run that gives a result and changes the machine in one step. -/
theorem of_ok {m' : Machine} {a : α} (hw : w m = (.ok a, m')) (hp : p m = (.ok a, m')) (hlead : m.Leads m')
    (ha : P m'.heap a) : Sound w p P m := by
  unfold Sound
  rw [hw, hp]
  exact ⟨rfl, hlead, ha⟩

theorem pure (hgood : m.heap.Good) {a : α} (ha : P m.heap a) : Sound (pure a) (pure a) P m :=
  of_ok rfl rfl (.refl hgood) ha

/-- A stop for a reason that is no fault. -/
theorem stop (hgood : m.heap.Good) {stop : Stop} (hstop : stop.Foreseen) :
    Sound (throw stop) (throw stop) P m :=
  ⟨rfl, .refl hgood, hstop⟩

/-- A mistake of the program is no fault. -/
theorem fail (hgood : m.heap.Good) (cause : Cause) (token : Token) :
    Sound (fail cause token) (fail cause token) P m :=
  stop hgood fun _ h => by cases h

/-- What is known of results may be weakened, with the heap as it is in the end. -/
theorem mono {P' : Heap → α → Prop} (h : Sound w p P m)
    (himp : ∀ m', m.Leads m' → ∀ a, P m'.heap a → P' m'.heap a) : Sound w p P' m := by
  obtain ⟨heq, hlead, hpost⟩ := h
  refine ⟨heq, hlead, ?_⟩
  split at hpost
  · exact himp _ hlead _ hpost
  · exact hpost

/-- The second run begins on the machine that the first one leaves, and may use what is known of its result. -/
theorem bind (h : Sound w p P m)
    (hf : ∀ a m', m.Leads m' → P m'.heap a → Sound (f a) (g a) Q m') : Sound (w >>= f) (p >>= g) Q m := by
  obtain ⟨heq, hlead, hpost⟩ := h
  unfold Sound
  rw [bind_apply, bind_apply, heq]
  rcases hp : p m with ⟨result, m'⟩
  rw [hp] at hlead hpost
  cases result with
  | error stop => exact ⟨rfl, hlead, hpost⟩
  | ok a =>
    obtain ⟨heq', hlead', hpost'⟩ := hf a m' hlead hpost
    exact ⟨heq', hlead.trans hlead', hpost'⟩

/-- The result is changed in the heap that the run leaves. -/
theorem map {f : α → β} (h : Sound w p P m)
    (hf : ∀ a m', m.Leads m' → P m'.heap a → Q m'.heap (f a)) : Sound (f <$> w) (f <$> p) Q m := by
  rw [map_eq_pure_bind, map_eq_pure_bind]
  exact h.bind fun a m' hlead ha => .pure hlead.good (hf a m' hlead ha)

theorem get {f g : Machine → Eval β} (h : Sound (f m) (g m) Q m) :
    Sound (MonadState.get >>= f) (MonadState.get >>= g) Q m :=
  h

theorem ensuring {check : Machine → Bool} (hcheck : check m = true) (h : Sound w p P m) :
    Sound (ensuring check w) p P m := by
  unfold Sound Eval.ensuring
  rw [if_pos hcheck]
  exact h

/-! ### The heap

What is put into the heap has to be valid, and with that the heap stays good. -/

/-- Frames hold values that suit their names, and instances begin without fields. -/
theorem alloc (hgood : m.heap.Good) {c : Cell}
    (hvars : ∀ vars, c = .frame vars → ∀ name v, vars.get? name = some v → v.Suits m.heap name)
    (hfields : ∀ fields, c = .fields fields → fields = []) :
    Sound (alloc c) (alloc c) (fun h a => a = m.heap.cells.size ∧ h = (m.heap.alloc c).2) m :=
  of_ok rfl rfl ⟨hgood.alloc hvars hfields, m.heap.le_alloc c, rfl⟩ ⟨rfl, rfl⟩

theorem allocFrame (hgood : m.heap.Good) {vars : Bindings Value}
    (hvars : ∀ name v, vars.get? name = some v → v.Suits m.heap name) :
    Sound (Eval.alloc (.frame vars)) (Eval.alloc (.frame vars))
      (fun h a => h.IsFrame a ∧ ∀ name, (vars.get? name).isSome → h.Binds a name) m := by
  refine (alloc hgood (fun _ heq => by cases heq; exact hvars) fun _ heq => by cases heq).mono ?_
  rintro m' - a ⟨rfl, hheap⟩
  rw [hheap]
  refine ⟨Heap.isFrame_alloc _ _, fun name hname => ?_⟩
  unfold Heap.Binds
  rwa [Heap.vars_alloc, if_pos rfl]

theorem allocIdentity (hgood : m.heap.Good) :
    Sound (Eval.alloc .identity) (Eval.alloc .identity) (fun _ _ => True) m :=
  (alloc hgood (fun _ heq => by cases heq) fun _ heq => by cases heq).mono fun _ _ _ _ => trivial

/-- The value has to suit the name in the heap that comes out, where it may refer to the frame itself. -/
theorem define (hgood : m.heap.Good) {a : Address} {name : String} {v : Value}
    (hv : v.Suits (m.heap.define a name v) name) :
    Sound (define a name v) (Eval.define a name v) (fun h _ => h = m.heap.define a name v) m :=
  of_ok rfl rfl ⟨hgood.define hv, m.heap.le_define a name v, rfl⟩ rfl

/-- Any valid value may be in a field. -/
theorem setField (hgood : m.heap.Good) {v : Value} (hv : v.Valid m.heap) (a : Address) (name : String) :
    Sound (setField a name v) (Eval.setField a name v) (fun _ _ => True) m :=
  of_ok rfl rfl ⟨hgood.setField hv a name, m.heap.le_setField a name v, rfl⟩ trivial

/-- Printing does not touch the heap. -/
theorem print (hgood : m.heap.Good) (text : String) :
    Sound (print text) (Eval.print text) (fun _ _ => True) m :=
  of_ok rfl rfl ⟨hgood, .refl _, rfl⟩ trivial

/-- The clock shows a number. -/
theorem readClock (hgood : m.heap.Good) (settings : Settings) :
    Sound (readClock settings) (Eval.readClock settings) (fun h v => v.Valid h) m :=
  of_ok rfl rfl ⟨hgood, .refl _, rfl⟩ trivial

/-! ### Environments and calls

In both cases the run inside is sound on its own, and the environment is that from before. -/

/-- A run elsewhere; whoever asked for it is back in the old environment. -/
theorem within {env : Environment} (h : Sound w p P { m with environment := env }) :
    Sound (within env w) (Eval.within env p) P m := by
  obtain ⟨heq, hlead, hpost⟩ := h
  have hrun : ∀ act : Eval α, Eval.within env act m
      = ((act { m with environment := env }).1,
        { (act { m with environment := env }).2 with environment := m.environment }) := fun _ => rfl
  unfold Sound
  rw [hrun, hrun, heq]
  exact ⟨rfl, ⟨hlead.good, hlead.le, rfl⟩, hpost⟩

/-- Too deep a nesting is no fault, and neither is the mistake that becomes of it. -/
theorem overflowAt {token : Token} (h : Sound w p P m) :
    Sound (overflowAt token w) (Eval.overflowAt token p) P m := by
  obtain ⟨heq, hlead, hpost⟩ := h
  unfold Sound Eval.overflowAt
  rw [heq]
  rcases hp : p m with ⟨result, m'⟩
  rw [hp] at hlead hpost
  match result with
  | .ok a => exact ⟨rfl, hlead, hpost⟩
  | .error (.error _) | .error (.fault _) | .error .tooLong => exact ⟨rfl, hlead, hpost⟩
  | .error .tooDeep => exact ⟨rfl, hlead, fun _ h => by cases h⟩

/-! ### Variables

By distance a variable is found where the frame binds it, and so there is no fault. Among the globals it may be missing,
and this is a mistake. -/

/-- A name that its frame binds is read. -/
theorem readAt (hgood : m.heap.Good) {env : Environment} {d : Nat} {name : String} {a : Address}
    (ha : env[d]? = some a) (hbinds : m.heap.Binds a name) :
    Sound (readAt env d name) (Eval.readAt env d name) (fun h v => v.Suits h name) m := by
  obtain ⟨v, hv⟩ := Option.isSome_iff_exists.mp hbinds
  have hrun : Eval.readAt env d name m = (.ok v, m) := by
    unfold Eval.readAt
    rw [get_bind, Environment.getAt_of_getElem? ha hv]
    rfl
  exact of_ok hrun hrun (.refl hgood) (hgood.vars hv)

/-- A frame that exists can be assigned to. -/
theorem assignAt (hgood : m.heap.Good) {env : Environment} {d : Nat} {name : String} {a : Address}
    {v : Value} (ha : env[d]? = some a) (hv : v.Suits m.heap name) :
    Sound (assignAt env d name v) (Eval.assignAt env d name v) (fun _ _ => True) m := by
  have hrun : Eval.assignAt env d name v = Eval.define a name v := by
    unfold Eval.assignAt
    rw [Environment.frameAt_of_getElem? ha]
    rfl
  rw [hrun]
  exact (define hgood (hv.mono (m.heap.le_define ..))).mono fun _ _ _ _ => trivial

/-- The name is found or there is a mistake. -/
theorem read (hgood : m.heap.Good) (env : Environment) (name : Token) :
    Sound (read env name) (Eval.read env name) (fun h v => v.Valid h) m := by
  refine get ?_
  cases hget : env.get? m.heap name.lexeme with
  | none => exact fail hgood _ _
  | some v =>
    obtain ⟨a, -, ha⟩ := List.exists_of_findSome?_eq_some hget
    exact pure hgood (hgood.vars ha).valid

/-- The name is found and the value suits it, or there is a mistake. -/
theorem assign (hgood : m.heap.Good) {env : Environment} {name : Token} {v : Value}
    (hv : v.Suits m.heap name.lexeme) :
    Sound (assign env name v) (Eval.assign env name v) (fun _ _ => True) m := by
  refine get ?_
  cases env.holder? m.heap name.lexeme with
  | none => exact fail hgood _ _
  | some a => exact (define hgood (hv.mono (m.heap.le_define ..))).mono fun _ _ _ _ => trivial

/-- After a declaration the innermost scope declares the name, and the value may make use of it. -/
theorem declare (h : m.At S) {name : Token} {v : Value}
    (hv : ∀ {h'}, m.heap.Le h' → m.environment.Fits h' (S.declare [name.lexeme]) → v.Suits h' name.lexeme) :
    Sound (declare name v) (Eval.declare name v)
      (fun h _ => m.environment.Fits h (S.declare [name.lexeme])) m := by
  refine get ?_
  cases henv : m.environment with
  | nil =>
    refine pure h.good ?_
    -- the definition binds the name, because the innermost frame is a frame
    have hfits := h.fits
    rw [henv] at hfits
    exact hfits.declare fun a ha => by cases ha
  | cons a env =>
    have hle := m.heap.le_define a name.lexeme v
    have hfits : m.environment.Fits (m.heap.define a name.lexeme v) (S.declare [name.lexeme]) := by
      refine (h.fits.mono hle).declare fun b hb hframe other hmem => ?_
      rw [henv] at hb
      cases hb
      rw [List.mem_singleton.mp hmem]
      refine Heap.binds_define ?_
      by_contra hnot
      rw [Heap.define_of_not_isFrame hnot] at hframe
      exact hnot hframe
    refine (define h.good (hv hle hfits)).mono fun m' _ _ hheap => ?_
    rw [hheap, ← henv]
    exact hfits

end Sound

end Eval

end LoxLang
