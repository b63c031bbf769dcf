import LoxLang.Proofs.Cells.Heaps
import LoxLang.Proofs.Cells.Reference
import LoxLang.Proofs.Run.Valid

/-!
# Runs side by side

`Eval.Sim` relates a run on frames and a run on cells: both give results, or both stop for the same reason with the
same lines printed. For expressions it is used as `Eval.Matches`, which leaves both environments as they were; for
statements as `Eval.Runs`, after which the environment of cells has a cell for each new name.
-/

namespace LoxLang

/-! ## Machines

Both machines show the same names, as the world says. What has been printed and how often the clock was read is equal.
-/

/-- Machines that hold the same, have printed the same and have read the clock as often. -/
structure Machine.Alike (W : World) (m m' : Machine) : Prop where
  heap : m.heap.Alike W m'.heap
  printed : m'.printed = m.printed
  readings : m'.readings = m.readings

/-- Machines at a place within scopes. The innermost frame has no names but those of its scope. -/
structure Machine.Mirrors (W : World) (S : Scopes) (m m' : Machine) : Prop where
  alike : m.Alike W m'
  environment : Environment.Mirrors W S m.environment m'.environment
  own : ∀ {a name c}, m.environment.head? = some a → W.place a name c → name ∈ S.headD []

/-- What the run of an expression leaves: a larger world, and both environments as they were. -/
structure Machine.Passes (W : World) (m m' : Machine) (W₁ : World) (n n' : Machine) : Prop where
  grows : W.Grows W₁ none
  alike : n.Alike W₁ n'
  left : n.environment = m.environment
  right : n'.environment = m'.environment

section

variable {W W₁ W₂ : World} {S : Scopes} {m m' n n' o o' : Machine}

theorem Machine.Passes.refl (h : m.Alike W m') : m.Passes W m' W m m' :=
  ⟨.refl W none, h, rfl, rfl⟩

theorem Machine.Passes.trans (h : m.Passes W m' W₁ n n') (h' : n.Passes W₁ n' W₂ o o') :
    m.Passes W m' W₂ o o' :=
  ⟨h.grows.trans h'.grows, h'.alike, h'.left.trans h.left, h'.right.trans h.right⟩

/-- The innermost frame of an environment is that of a scope, or it holds the globals and has no places. -/
theorem Machine.Mirrors.frame_of_head (h : m.Mirrors W S m') {a : Address}
    (ha : m.environment.head? = some a) : W.frame a ∨ a = 0 := by
  have henv := h.environment
  cases S with
  | nil =>
    rw [henv.1] at ha
    exact Or.inr (Option.some.inj ha).symm
  | cons scope S =>
    cases hm : m.environment with
    | nil =>
      rw [hm] at henv
      exact henv.elim
    | cons b env =>
      rw [hm] at henv ha
      cases ha
      exact Or.inl henv.1

/-- A run that declares nothing here leaves both environments as they were, and the frames outside have got no name. -/
theorem Machine.Mirrors.pass (h : m.Mirrors W S m') (hpass : m.Passes W m' W₁ n n') :
    n.Mirrors W₁ S n' := by
  refine ⟨hpass.alike, ?_, fun {a name c} ha hp => ?_⟩
  · rw [hpass.left, hpass.right]
    exact h.environment.mono hpass.grows
  · rw [hpass.left] at ha
    rcases h.frame_of_head ha with hframe | rfl
    · exact h.own ha (hpass.grows.steady hframe (by simp) hp)
    · exact absurd rfl (hpass.alike.heap.frames (W₁.frame_of_place hp)).1

end

/-! ## Results

The relation between results may refer to the machines that are left, since a value is alike only in a world. -/

namespace Eval

variable {α β γ δ : Type}

/-- Both runs give results that are related, or both stop for one reason with the same lines printed. -/
def Sim (act : Eval α) (act' : Eval β) (R : Machine → Machine → α → β → Prop) (m m' : Machine) : Prop :=
  match act m, act' m' with
  | (.ok a, n), (.ok b, n') => R n n' a b
  | (.error stop, n), (.error stop', n') => stop' = stop ∧ n'.printed = n.printed
  | _, _ => False

/-- Runs that leave the environments as they were. -/
def Matches (W : World) (act : Eval α) (act' : Eval β) (Q : World → α → β → Prop) (m m' : Machine) : Prop :=
  Sim act act' (fun n n' a b => ∃ W₁, m.Passes W m' W₁ n n' ∧ Q W₁ a b) m m'

variable {W W₁ : World} {S : Scopes} {m m' n n' : Machine} {act : Eval α} {act' : Eval β}

/-- What is known of the results may be weakened. -/
theorem Sim.mono {R R' : Machine → Machine → α → β → Prop} (h : Sim act act' R m m')
    (himp : ∀ n n' a b, R n n' a b → R' n n' a b) : Sim act act' R' m m' := by
  unfold Sim at h ⊢
  rcases hact : act m with ⟨_ | a, n⟩ <;> rcases hact' : act' m' with ⟨_ | b, n'⟩ <;>
    rw [hact, hact'] at h
  · exact h
  · exact h
  · exact h
  · exact himp _ _ _ _ h

/-- Corresponding results are handed on; a run that stops is followed by nothing on either side. -/
theorem Sim.bind {R : Machine → Machine → α → β → Prop} {R' : Machine → Machine → γ → δ → Prop}
    {f : α → Eval γ} {g : β → Eval δ} (h : Sim act act' R m m')
    (hf : ∀ n n' a b, R n n' a b → Sim (f a) (g b) R' n n') : Sim (act >>= f) (act' >>= g) R' m m' := by
  unfold Sim at h ⊢
  rw [bind_apply, bind_apply]
  rcases hact : act m with ⟨_ | a, n⟩ <;> rcases hact' : act' m' with ⟨_ | b, n'⟩ <;>
    rw [hact, hact'] at h
  · exact h
  · exact h.elim
  · exact h.elim
  · exact hf _ _ _ _ h

theorem Sim.stop {R : Machine → Machine → α → β → Prop} (h : m'.printed = m.printed) (stop : Stop) :
    Sim (throw stop : Eval α) (throw stop : Eval β) R m m' :=
  ⟨rfl, h⟩

namespace Matches

variable {P : World → α → β → Prop} {Q : World → γ → δ → Prop} {f : α → Eval γ} {g : β → Eval δ}

/-- Runs that give results and change the machines in one step. -/
theorem of_ok {a : α} {b : β} (hact : act m = (.ok a, n)) (hact' : act' m' = (.ok b, n'))
    (hpass : m.Passes W m' W₁ n n') (hP : P W₁ a b) : Matches W act act' P m m' := by
  unfold Matches Sim
  rw [hact, hact']
  exact ⟨W₁, hpass, hP⟩

theorem pure (h : m.Alike W m') {a : α} {b : β} (hP : P W a b) :
    Matches W (Pure.pure a) (Pure.pure b) P m m' :=
  of_ok rfl rfl (.refl h) hP

theorem stop (h : m.Alike W m') (stop : Stop) : Matches W (throw stop : Eval α) (throw stop : Eval β) P m m' :=
  Sim.stop h.printed stop

theorem fail (h : m.Alike W m') (cause : Cause) (token : Token) :
    Matches W (Eval.fail cause token : Eval α) (Eval.fail cause token : Eval β) P m m' :=
  Sim.stop h.printed _

theorem mono {P' : World → α → β → Prop} (h : Matches W act act' P m m')
    (himp : ∀ W₁ a b, W.Grows W₁ none → P W₁ a b → P' W₁ a b) : Matches W act act' P' m m' :=
  Sim.mono h fun _ _ a b ⟨W₁, hpass, hP⟩ => ⟨W₁, hpass, himp W₁ a b hpass.grows hP⟩

theorem bind (h : Matches W act act' P m m')
    (hf : ∀ W₁ n n' a b, m.Passes W m' W₁ n n' → P W₁ a b → Matches W₁ (f a) (g b) Q n n') :
    Matches W (act >>= f) (act' >>= g) Q m m' := by
  refine Sim.bind h fun n n' a b hR => ?_
  obtain ⟨W₁, hpass, hP⟩ := hR
  refine Sim.mono (hf W₁ n n' a b hpass hP) fun o o' c d hR' => ?_
  obtain ⟨W₂, hpass', hQ⟩ := hR'
  exact ⟨W₂, hpass.trans hpass', hQ⟩

theorem map {f : α → γ} {g : β → δ} (h : Matches W act act' P m m')
    (hf : ∀ W₁ a b, W.Grows W₁ none → P W₁ a b → Q W₁ (f a) (g b)) :
    Matches W (f <$> act) (g <$> act') Q m m' := by
  rw [map_eq_pure_bind, map_eq_pure_bind]
  exact h.bind fun W₁ n n' a b hpass hP => .pure hpass.alike (hf W₁ a b hpass.grows hP)

/-- Behind steps that give results and leave the environments as they were. -/
theorem step {a : α} {b : β} (hact : act m = (.ok a, n)) (hact' : act' m' = (.ok b, n'))
    (hleft : n.environment = m.environment) (hright : n'.environment = m'.environment)
    (h : Matches W (f a) (g b) Q n n') : Matches W (act >>= f) (act' >>= g) Q m m' := by
  have hbind : (act >>= f) m = f a n := by rw [bind_apply, hact]
  have hbind' : (act' >>= g) m' = g b n' := by rw [bind_apply, hact']
  have hrest : Sim (f a) (g b)
      (fun o o' c d => ∃ W₁, m.Passes W m' W₁ o o' ∧ Q W₁ c d) n n' := by
    refine Sim.mono h fun o o' c d hR => ?_
    obtain ⟨W₁, hpass, hQ⟩ := hR
    exact ⟨W₁, ⟨hpass.grows, hpass.alike, hpass.left.trans hleft, hpass.right.trans hright⟩, hQ⟩
  unfold Matches Sim
  rw [hbind, hbind']
  exact hrest

theorem get {f : Machine → Eval γ} {g : Machine → Eval δ} (h : Matches W (f m) (g m') Q m m') :
    Matches W (MonadState.get >>= f) (MonadState.get >>= g) Q m m' :=
  h

/-- Both calls are too deep or none is. -/
theorem overflowAt {act : Eval α} {act' : Eval β} {token : Token} (h : Matches W act act' P m m') :
    Matches W (Eval.overflowAt token act) (Eval.overflowAt token act') P m m' := by
  unfold Matches Sim Eval.overflowAt at *
  rcases hact : act m with ⟨reason | a, n⟩ <;> rcases hact' : act' m' with ⟨reason' | b, n'⟩ <;>
    rw [hact, hact'] at h
  · obtain ⟨rfl, hprinted⟩ := h
    cases reason' with
    | tooDeep => exact ⟨rfl, hprinted⟩
    | _ => exact ⟨rfl, hprinted⟩
  · exact h.elim
  · exact h.elim
  · exact h

/-! ### The heap

Allocation differs on the two sides: a frame for a whole scope on one, a cell for each name on the other. -/

theorem allocTwin (h : m.Alike W m') {k k' : Cell} (hkind : k.Alike W k') :
    Matches W (alloc k) (alloc k') (fun W₁ b c => W₁.twin b c) m m' := by
  obtain ⟨W₁, hgrows, htwin, halike⟩ := h.heap.allocTwin hkind
  exact of_ok rfl rfl ⟨hgrows, ⟨halike, h.printed, h.readings⟩, rfl, rfl⟩ htwin

/-- A new frame that binds one name, and a cell for it. -/
theorem allocCell (h : m.Alike W m') (name : String) {v w : Value} (hvw : v.Alike W w) :
    Matches W (alloc (.frame [(name, v)])) (alloc (.frame [(name, w)]))
      (fun W₁ a c => W₁.frame a ∧ W₁.place a name c) m m' := by
  obtain ⟨hframe, hnew⟩ := h.heap.allocFrame [(name, v)]
  have hgrows := W.grows_addFrame (a := m.heap.cells.size) (some m.heap.cells.size)
  have hbound : ((m.heap.alloc (.frame [(name, v)])).2.vars m.heap.cells.size).get? name = some v := by
    rw [Heap.vars_alloc, if_pos rfl]
    exact (Bindings.get?_singleton _ _ _).trans (if_pos rfl)
  have hunplaced : ∀ c, ¬ (W.addFrame m.heap.cells.size).place m.heap.cells.size name c :=
    fun c hp => hnew (W.frame_of_place hp)
  obtain ⟨W₁, hgrows₁, hp, -, halike⟩ :=
    hframe.allocPlace (Or.inl rfl) hunplaced hbound (hvw.mono hgrows)
  refine of_ok rfl rfl ⟨(hgrows.trans hgrows₁).outside hnew, ⟨halike, h.printed, h.readings⟩, rfl, rfl⟩ ?_
  exact ⟨W₁.frame_of_place hp, hp⟩

theorem setField (h : m.Alike W m') {b c : Address} (htwin : W.twin b c) {v w : Value}
    (hvw : v.Alike W w) (name : String) :
    Matches W (setField b name v) (Eval.setField c name w) (fun _ _ _ => True) m m' :=
  of_ok rfl rfl ⟨.refl W none, ⟨h.heap.setField htwin hvw name, h.printed, h.readings⟩, rfl, rfl⟩ trivial

theorem print (h : m.Alike W m') {text text' : String} (htext : text' = text) :
    Matches W (print text) (Eval.print text') (fun _ _ _ => True) m m' := by
  subst htext
  have hprinted : m'.printed.push text' = m.printed.push text' := by rw [h.printed]
  exact of_ok rfl rfl ⟨.refl W none, ⟨h.heap, hprinted, h.readings⟩, rfl, rfl⟩ trivial

theorem readClock (h : m.Alike W m') (settings : Settings) :
    Matches W (readClock settings) (Eval.readClock settings) (fun W v w => v.Alike W w) m m' := by
  have hreadings : m'.readings + 1 = m.readings + 1 := by rw [h.readings]
  refine of_ok rfl rfl ⟨.refl W none, ⟨h.heap, h.printed, hreadings⟩, rfl, rfl⟩ ?_
  rw [h.readings]
  exact .number _

/-! ### Names

A name is read by its distance on one side, and on the other by a search for the first cell of this name. In both cases
the world says that they belong together, by `Environment.Mirrors`. -/

/-- A local name that both sides bind. -/
theorem readAt (h : m.Mirrors W S m') {name : Token} {d : Nat} (hd : S.hops name.lexeme = some d) :
    Matches W (readAt m.environment d name.lexeme) (Eval.read m'.environment name)
      (fun W v w => v.Alike W w) m m' := by
  obtain ⟨a, v, w, ha, hv, hw, hvw⟩ := h.environment.values_of_hops h.alike.heap hd
  have hleft : Eval.readAt m.environment d name.lexeme m = (.ok v, m) := by
    unfold Eval.readAt
    rw [get_bind, Environment.getAt_of_getElem? ha hv]
    rfl
  have hright : Eval.read m'.environment name m' = (.ok w, m') := by
    unfold Eval.read
    rw [get_bind, hw]
    rfl
  exact of_ok hleft hright (.refl h.alike) hvw

/-- A word of classes in environments that correspond. -/
theorem valueOf (h : m.Alike W m') {env cells : Environment} (henv : Environment.Mirrors W S env cells)
    {word : String} {d : Nat} (hd : S.hops word = some d) :
    Matches W (Eval.readAt env d word) (Cells.valueOf cells word) (fun W v w => v.Alike W w) m m' := by
  obtain ⟨a, v, w, ha, hv, hw, hvw⟩ := henv.values_of_hops h.heap hd
  have hleft : Eval.readAt env d word m = (.ok v, m) := by
    unfold Eval.readAt
    rw [get_bind, Environment.getAt_of_getElem? ha hv]
    rfl
  have hright : Cells.valueOf cells word m' = (.ok w, m') := by
    unfold Cells.valueOf
    rw [get_bind, hw]
    rfl
  exact of_ok hleft hright (.refl h) hvw

/-- A name that only the globals may bind. -/
theorem readGlobal (h : m.Mirrors W S m') {name : Token} (hd : S.hops name.lexeme = none) :
    Matches W (Eval.read .globals name) (Eval.read m'.environment name) (fun W v w => v.Alike W w) m m' := by
  have hcells : m'.environment.get? m'.heap name.lexeme = (m'.heap.vars 0).get? name.lexeme := by
    rw [Environment.get?_eq_holder, h.environment.holder_of_not_hops h.alike.heap hd,
      ← Environment.get?_eq_holder]
    exact List.findSome?_singleton
  have hglobals : Environment.globals.get? m.heap name.lexeme = (m.heap.vars 0).get? name.lexeme :=
    List.findSome?_singleton
  refine get ?_
  rw [hglobals, hcells]
  have hrel := h.alike.heap.globals name.lexeme
  revert hrel
  cases (m.heap.vars 0).get? name.lexeme <;> cases (m'.heap.vars 0).get? name.lexeme <;> intro hrel <;>
    cases hrel
  · exact .fail h.alike _ _
  · next hvw => exact .pure h.alike hvw

/-- A local name is changed in its frame and in its cell. -/
theorem assignAt (h : m.Mirrors W S m') {name : Token} {d : Nat} (hd : S.hops name.lexeme = some d)
    {v w : Value} (hvw : v.Alike W w) :
    Matches W (assignAt m.environment d name.lexeme v) (Eval.assign m'.environment name w)
      (fun _ _ _ => True) m m' := by
  obtain ⟨a, c, ha, hp, hholder⟩ := h.environment.holder_of_hops h.alike.heap hd
  have hleft : Eval.assignAt m.environment d name.lexeme v = Eval.define a name.lexeme v := by
    unfold Eval.assignAt
    rw [Environment.frameAt_of_getElem? ha]
    rfl
  have hright : Eval.assign m'.environment name w m' = Eval.define c name.lexeme w m' := by
    unfold Eval.assign
    rw [get_bind, hholder]
  rw [hleft]
  refine of_ok rfl hright ⟨.refl W none, ⟨h.alike.heap.assign hp hvw, ?_, ?_⟩, rfl, rfl⟩ trivial
  · exact h.alike.printed
  · exact h.alike.readings

/-- A global is changed on both sides, if it exists. -/
theorem assignGlobal (h : m.Mirrors W S m') {name : Token} (hd : S.hops name.lexeme = none) {v w : Value}
    (hvw : v.Alike W w) :
    Matches W (Eval.assign .globals name v) (Eval.assign m'.environment name w) (fun _ _ _ => True) m m' := by
  -- a search that starts at the globals ends there
  have hholder : ∀ h : Heap, Environment.globals.holder? h name.lexeme
      = if ((h.vars 0).get? name.lexeme).isSome then some 0 else none := by
    intro h
    unfold Environment.holder? Environment.globals
    rw [List.find?_cons]
    cases ((h.vars 0).get? name.lexeme).isSome <;> rfl
  have hsome : ((m'.heap.vars 0).get? name.lexeme).isSome = ((m.heap.vars 0).get? name.lexeme).isSome := by
    have hrel := h.alike.heap.globals name.lexeme
    revert hrel
    cases (m.heap.vars 0).get? name.lexeme <;> cases (m'.heap.vars 0).get? name.lexeme <;> intro hrel <;>
      cases hrel <;> rfl
  -- no local scope has the name, so both searches are of the globals, and these bind the same names
  refine get ?_
  rw [h.environment.holder_of_not_hops h.alike.heap hd, hholder, hholder, hsome]
  cases ((m.heap.vars 0).get? name.lexeme).isSome with
  | false => exact .fail h.alike _ _
  | true =>
    refine of_ok rfl rfl ⟨.refl W none, ⟨h.alike.heap.assignGlobal hvw, ?_, ?_⟩, rfl, rfl⟩ trivial
    · exact h.alike.printed
    · exact h.alike.readings

end Matches

end Eval

namespace Runner

variable {W : World} {S : Scopes} {m m' : Machine}

/-- A reference goes to the frame it notes, and to the first cell of its name. -/
theorem lookUp_matches (h : m.Mirrors W S m') {r : Reference Hops} (hnote : r.note = S.hops r.name.lexeme) :
    Eval.Matches W (lookUp r) (do Eval.read (← get).environment r.name) (fun W v w => v.Alike W w) m m' := by
  unfold lookUp
  cases hd : r.note with
  | none => exact Eval.Matches.readGlobal h (hnote.symm.trans hd)
  | some d => exact Eval.Matches.readAt h (hnote.symm.trans hd)

theorem assign_matches (h : m.Mirrors W S m') {r : Reference Hops} (hnote : r.note = S.hops r.name.lexeme)
    {v w : Value} (hvw : v.Alike W w) :
    Eval.Matches W (assign r v) (do Eval.assign (← get).environment r.name w) (fun _ _ _ => True) m m' := by
  unfold assign
  cases hd : r.note with
  | none => exact Eval.Matches.assignGlobal h (hnote.symm.trans hd) hvw
  | some d => exact Eval.Matches.assignAt h (hnote.symm.trans hd) hvw

end Runner

/-! ## Statements

A statement may leave more names behind. So the triple for statements has a condition on both environments instead of
the claim that they are as before. -/

/-- Statements end the same way. -/
inductive Completion.Alike (W : World) : Completion → Completion → Prop where
  | completed : Alike W .completed .completed
  | returning {v w : Value} (h : v.Alike W w) : Alike W (.returning v) (.returning w)

namespace Eval

variable {α β : Type} {W W₁ : World} {S : Scopes} {m m' n n' : Machine}

/-- Runs of statements that end the same way. Only the innermost frame may have got names. -/
def Runs (W : World) (act act' : Eval Completion) (Q : World → Machine → Machine → Prop)
    (m m' : Machine) : Prop :=
  Sim act act' (fun n n' c d => ∃ W₁, W.Grows W₁ m.environment.head? ∧ n.Alike W₁ n' ∧
    n.environment = m.environment ∧ c.Alike W₁ d ∧ (c = .completed → Q W₁ n n')) m m'

namespace Runs

variable {act act' : Eval Completion} {P Q : World → Machine → Machine → Prop}

theorem completed (h : m.Alike W m') (hQ : Q W m m') :
    Runs W (pure .completed) (pure .completed) Q m m' :=
  ⟨W, .refl W _, h, rfl, .completed, fun _ => hQ⟩

theorem returning (h : m.Alike W m') {v w : Value} (hvw : v.Alike W w) :
    Runs W (pure (.returning v)) (pure (.returning w)) Q m m' :=
  ⟨W, .refl W _, h, rfl, .returning hvw, fun heq => by cases heq⟩

theorem stop (h : m.Alike W m') (stop : Stop) : Runs W (throw stop) (throw stop) Q m m' :=
  Sim.stop h.printed stop

theorem after {act : Eval α} {act' : Eval β} {R : World → α → β → Prop} {f : α → Eval Completion}
    {g : β → Eval Completion} (h : Matches W act act' R m m')
    (hf : ∀ W₁ n n' a b, m.Passes W m' W₁ n n' → R W₁ a b → Runs W₁ (f a) (g b) Q n n') :
    Runs W (act >>= f) (act' >>= g) Q m m' := by
  refine Sim.bind h fun n n' a b hR => ?_
  obtain ⟨W₁, hpass, hab⟩ := hR
  refine Sim.mono (hf W₁ n n' a b hpass hab) fun o o' c d hR' => ?_
  obtain ⟨W₂, hgrows, halike, henv, hcd, hQ⟩ := hR'
  rw [hpass.left] at hgrows henv
  exact ⟨W₂, (hpass.grows.weaken _).trans hgrows, halike, henv, hcd, hQ⟩

theorem bind {f g : Completion → Eval Completion} (h : Runs W act act' P m m')
    (hf : ∀ W₁ n n' c d, W.Grows W₁ m.environment.head? → n.Alike W₁ n' → n.environment = m.environment →
      c.Alike W₁ d → (c = .completed → P W₁ n n') → Runs W₁ (f c) (g d) Q n n') :
    Runs W (act >>= f) (act' >>= g) Q m m' := by
  refine Sim.bind h fun n n' c d hR => ?_
  obtain ⟨W₁, hgrows, halike, henv, hcd, hP⟩ := hR
  refine Sim.mono (hf W₁ n n' c d hgrows halike henv hcd hP) fun o o' c' d' hR' => ?_
  obtain ⟨W₂, hgrows', halike', henv', hcd', hQ⟩ := hR'
  rw [henv] at hgrows' henv'
  exact ⟨W₂, hgrows.trans hgrows', halike', henv', hcd', hQ⟩

/-- A body in a new frame: outside of it nothing has got a name. -/
theorem within {W₀ : World} {a : Address} {env cells : Environment} (hnew : ¬ W₀.frame a)
    (hgrows : W₀.Grows W (some a))
    (h : Runs W act act' Q { m with environment := a :: env } { m' with environment := cells }) :
    Matches W₀ (Eval.within (a :: env) act) (Eval.within cells act') (fun W₁ c d => c.Alike W₁ d) m m' := by
  have hleft : Eval.within (a :: env) act m
      = ((act { m with environment := a :: env }).1,
        { (act { m with environment := a :: env }).2 with environment := m.environment }) := rfl
  have hright : Eval.within cells act' m'
      = ((act' { m' with environment := cells }).1,
        { (act' { m' with environment := cells }).2 with environment := m'.environment }) := rfl
  -- the body begins in a frame that the world before did not have, and what it declares there is not seen outside
  unfold Matches Sim
  rw [hleft, hright]
  unfold Runs Sim at h
  rcases hact : act { m with environment := a :: env } with ⟨_ | c, n⟩ <;>
    rcases hact' : act' { m' with environment := cells } with ⟨_ | d, n'⟩ <;> rw [hact, hact'] at h
  · exact h
  · exact h.elim
  · exact h.elim
  · obtain ⟨W₁, hgrows₁, halike, -, hcd, -⟩ := h
    have hgrows' := (hgrows.trans hgrows₁).outside hnew
    exact ⟨W₁, ⟨hgrows', ⟨halike.heap, halike.printed, halike.readings⟩, rfl, rfl⟩, hcd⟩

end Runs

end Eval

end LoxLang
