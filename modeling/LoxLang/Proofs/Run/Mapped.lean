import LoxLang.Run.Evaluate

/-!
# Machines with other values

Runs look at little of a value, so that a change of what they do not look at is carried along.

* **`Machine.mapValues`** — a machine with every value changed.
* **`Eval.Carries`** — a triple for two runs: on the changed machine the second one does what the first one does on the
  machine, and stops for the same reasons.

The rules are those for parts of runs that do not look at values at all.

The change of values need not be one to one. What it has to keep is stated where it is used, with the runs that do look
at values: for printing, for calls and for operators.
-/

namespace LoxLang

/-! ## Bindings

Bindings are looked up by name only, so that lookups and changes commute. -/

namespace Bindings

variable {α β : Type}

/-- Bindings with every value changed. -/
def mapValues (f : α → β) (b : Bindings α) : Bindings β :=
  b.map fun (name, a) => (name, f a)

/-- A name has the changed value or none. -/
theorem get?_mapValues (f : α → β) (b : Bindings α) (name : String) :
    (b.mapValues f).get? name = (b.get? name).map f := by
  induction b with
  | nil => rfl
  | cons binding rest ih =>
    obtain ⟨n, a⟩ := binding
    show (if n = name then some (f a) else get? (mapValues f rest) name)
      = (if n = name then some a else get? rest name).map f
    by_cases hn : n = name
    · rw [if_pos hn, if_pos hn, Option.map_some]
    · rw [if_neg hn, if_neg hn, ih]

theorem mapValues_mapValues {γ : Type} (f : α → β) (g : β → γ) (b : Bindings α) :
    (b.mapValues f).mapValues g = b.mapValues fun a => g (f a) :=
  List.map_map

/-- A binding is made of the changed value. -/
theorem put_mapValues (f : α → β) (b : Bindings α) (name : String) (a : α) :
    (b.mapValues f).put name (f a) = (b.put name a).mapValues f := by
  induction b with
  | nil => rfl
  | cons binding rest ih =>
    obtain ⟨n, a'⟩ := binding
    show (if n = name then (n, f a) :: mapValues f rest else (n, f a') :: put (mapValues f rest) name (f a))
      = mapValues f (if n = name then (n, a) :: rest else (n, a') :: put rest name a)
    by_cases hn : n = name
    · rw [if_pos hn, if_pos hn]
      rfl
    · rw [if_neg hn, if_neg hn, ih]
      rfl

/-- Parameters are bound to the changed arguments. -/
theorem ofLists_map (f : α → β) (names : List String) (values : List α) :
    ofLists names (values.map f) = (ofLists names values).mapValues f := by
  -- names are put one after the other behind what there is already
  suffices h : ∀ b : Bindings α, ((names.zip (values.map f)).foldl (fun b (n, a) => b.put n a) (b.mapValues f))
      = ((names.zip values).foldl (fun b (n, a) => b.put n a) b).mapValues f from h []
  induction names generalizing values with
  | nil => exact fun _ => rfl
  | cons name names ih =>
    intro b
    cases values with
    | nil => rfl
    | cons value values =>
      show (names.zip (values.map f)).foldl _ ((b.mapValues f).put name (f value)) = _
      rw [put_mapValues]
      exact ih values _

end Bindings

/-! ## The heap

Addresses are no values, so the changed heap has the same cells at the same places. -/

/-- A cell with every value changed. -/
def Cell.mapValues (g : Value → Value) : Cell → Cell
  | .frame b => .frame (b.mapValues g)
  | .fields b => .fields (b.mapValues g)
  | .identity => .identity

/-- A heap with every value changed. -/
def Heap.mapValues (g : Value → Value) (h : Heap) : Heap :=
  ⟨h.cells.map (·.mapValues g)⟩

/-- A machine with every value on its heap changed. -/
def Machine.mapValues (g : Value → Value) (m : Machine) : Machine :=
  { m with heap := m.heap.mapValues g }

theorem Cell.mapValues_mapValues (f g : Value → Value) (c : Cell) :
    (c.mapValues f).mapValues g = c.mapValues fun v => g (f v) := by
  cases c with
  | frame b => exact congrArg Cell.frame (b.mapValues_mapValues f g)
  | fields b => exact congrArg Cell.fields (b.mapValues_mapValues f g)
  | identity => rfl

/-- Two changes are one, all over the machine. -/
theorem Machine.mapValues_mapValues (f g : Value → Value) (m : Machine) :
    (m.mapValues f).mapValues g = m.mapValues fun v => g (f v) := by
  have hcells : (m.heap.cells.map (·.mapValues f)).map (·.mapValues g)
      = m.heap.cells.map (·.mapValues fun v => g (f v)) := by
    rw [Array.map_map]
    exact congrArg (Array.map · _) (funext fun c => c.mapValues_mapValues f g)
  exact congrArg (fun cells => { m with heap := ⟨cells⟩ : Machine }) hcells

section

variable (g : Value → Value) (h : Heap)

namespace Heap

theorem vars_mapValues (a : Address) : (h.mapValues g).vars a = (h.vars a).mapValues g := by
  unfold vars mapValues
  rw [Array.getElem?_map]
  cases h.cells[a]? with
  | none => rfl
  | some c => cases c <;> rfl

theorem fields_mapValues (a : Address) : (h.mapValues g).fields a = (h.fields a).mapValues g := by
  unfold fields mapValues
  rw [Array.getElem?_map]
  cases h.cells[a]? with
  | none => rfl
  | some c => cases c <;> rfl

/-- The new cell is at the same address on both sides. -/
theorem alloc_mapValues (c : Cell) :
    (h.mapValues g).alloc (c.mapValues g) = ((h.alloc c).1, (h.alloc c).2.mapValues g) := by
  unfold alloc mapValues
  rw [Array.size_map, Array.map_push]

/-- Changing a cell of the changed heap is changing the heap with the cell changed. -/
theorem modify_mapValues {f f' : Cell → Cell} (hf : ∀ c, f' (c.mapValues g) = (f c).mapValues g) (a : Address) :
    ⟨(h.mapValues g).cells.modify a f'⟩ = (⟨h.cells.modify a f⟩ : Heap).mapValues g := by
  apply congrArg Heap.mk
  unfold mapValues
  apply Array.ext
  · simp only [Array.size_modify, Array.size_map]
  · intro i _ _
    simp only [Array.getElem_modify, Array.getElem_map]
    split
    · exact hf _
    · rfl

/-- A frame that gets a binding. -/
theorem define_mapValues (a : Address) (name : String) (v : Value) :
    (h.mapValues g).define a name (g v) = (h.define a name v).mapValues g := by
  apply modify_mapValues
  intro c
  cases c with
  | frame b => exact congrArg Cell.frame (Bindings.put_mapValues g b name v)
  | fields | identity => rfl

/-- An instance that gets a field. -/
theorem setField_mapValues (a : Address) (name : String) (v : Value) :
    (h.mapValues g).setField a name (g v) = (h.setField a name v).mapValues g := by
  apply modify_mapValues
  intro c
  cases c with
  | fields b => exact congrArg Cell.fields (Bindings.put_mapValues g b name v)
  | frame | identity => rfl

end Heap

namespace Environment

variable (env : Environment)

/-- The frame that binds a name is the same one. -/
theorem holder?_mapValues (name : String) : env.holder? (h.mapValues g) name = env.holder? h name := by
  unfold holder?
  congr 1
  funext a
  rw [Heap.vars_mapValues, Bindings.get?_mapValues, Option.isSome_map]

/-- The value that is found is the changed one. -/
theorem get?_mapValues (name : String) : env.get? (h.mapValues g) name = (env.get? h name).map g := by
  unfold get?
  induction env with
  | nil => rfl
  | cons a env ih =>
    rw [List.findSome?_cons, List.findSome?_cons, ih, Heap.vars_mapValues, Bindings.get?_mapValues]
    cases (h.vars a).get? name <;> rfl

/-- So it is by distance, and faults are the same. -/
theorem getAt_mapValues (distance : Nat) (name : String) :
    env.getAt (h.mapValues g) distance name = (env.getAt h distance name).map g := by
  unfold getAt
  cases frameAt env distance with
  | error f => rfl
  | ok a =>
    have hvars : ((h.mapValues g).vars a).get? name = ((h.vars a).get? name).map g := by
      rw [Heap.vars_mapValues, Bindings.get?_mapValues]
    simp only [bind, Except.bind, hvars]
    cases (h.vars a).get? name <;> rfl

end Environment

end

/-! ## Runs

The results may be changed in their own way, `φ`, since not every result is a value. -/

variable {g : Value → Value} {α β γ δ : Type}

/-- What a run leaves, with every value changed. -/
def Eval.carriedOutcome (g : Value → Value) (φ : α → β) : Except Stop α × Machine → Except Stop β × Machine
  | (.ok a, m) => (.ok (φ a), m.mapValues g)
  | (.error stop, m) => (.error stop, m.mapValues g)

/-- On the changed machine the second run leaves what the first one leaves, changed. -/
def Eval.Carries (g : Value → Value) (φ : α → β) (act : Eval α) (act' : Eval β) : Prop :=
  ∀ m : Machine, act' (m.mapValues g) = Eval.carriedOutcome g φ (act m)

namespace Eval.Carries

variable {φ : α → β} {ψ : γ → δ} {act : Eval α} {act' : Eval β}

theorem pure {a : α} {b : β} (h : φ a = b) : Carries g φ (pure a) (pure b) := by
  subst h
  exact fun _ => rfl

theorem throw (stop : Stop) : Carries g φ (throw stop) (throw stop) :=
  fun _ => rfl

theorem fail (cause : Cause) (token : Token) : Carries g φ (fail cause token) (fail cause token) :=
  fun _ => rfl

/-- Corresponding results are handed on to runs that carry each other. -/
theorem bind {f : α → Eval γ} {f' : β → Eval δ} (h : Carries g φ act act') (hf : ∀ a, Carries g ψ (f a) (f' (φ a))) :
    Carries g ψ (act >>= f) (act' >>= f') := by
  intro m
  rw [bind_apply, bind_apply, h m]
  rcases act m with ⟨stop | a, m'⟩
  · rfl
  · exact hf a m'

theorem map {f : α → γ} {f' : β → δ} (h : Carries g φ act act') (hf : ∀ a, ψ (f a) = f' (φ a)) :
    Carries g ψ (f <$> act) (f' <$> act') := by
  rw [map_eq_pure_bind, map_eq_pure_bind]
  exact h.bind fun a => .pure (hf a)

theorem get {f : Machine → Eval γ} {f' : Machine → Eval δ} (h : ∀ m, Carries g ψ (f m) (f' (m.mapValues g))) :
    Carries g ψ (MonadState.get >>= f) (MonadState.get >>= f') :=
  fun m => h m m

theorem modifyGet {s : Machine → α × Machine} {s' : Machine → β × Machine}
    (h : ∀ m, s' (m.mapValues g) = (φ (s m).1, (s m).2.mapValues g)) :
    Carries g φ (modifyGet s : Eval α) (MonadStateOf.modifyGet s') := by
  intro m
  show (Except.ok (s' (m.mapValues g)).1, (s' (m.mapValues g)).2) = _
  rw [h m]
  rfl

/-- A fault is the same on both sides. -/
theorem ofExcept {r : Except Fault α} : Carries g φ (ofExcept r) (Eval.ofExcept (r.map φ)) := by
  cases r with
  | ok a => exact pure rfl
  | error f => exact throw (.fault f)

/-- Environments consist of addresses, which are not changed. -/
theorem within {env : Environment} (h : Carries g φ act act') :
    Carries g φ (within env act) (Eval.within env act') := by
  intro m
  have hm : act' { m.mapValues g with environment := env } = carriedOutcome g φ (act { m with environment := env }) :=
    h { m with environment := env }
  -- an environment is a list of addresses, and holds no values
  unfold Eval.within
  dsimp only
  rw [hm]
  rcases act { m with environment := env } with ⟨stop | a, m'⟩ <;> rfl

/-- The reason to stop is the same, and so is what becomes of it. -/
theorem overflowAt {token : Token} (h : Carries g φ act act') :
    Carries g φ (overflowAt token act) (Eval.overflowAt token act') := by
  intro m
  unfold Eval.overflowAt
  rw [h m]
  rcases act m with ⟨result, m'⟩
  match result with
  | .ok a | .error (.error d) | .error (.fault f) | .error .tooDeep | .error .tooLong => rfl

/-! ### The heap

These touch no value but the one that they are given. -/

/-- A changed cell is allocated at the same address. -/
theorem alloc (c : Cell) : Carries g id (alloc c) (Eval.alloc (c.mapValues g)) := by
  apply modifyGet
  intro m
  show (((m.heap.mapValues g).alloc (c.mapValues g)).1,
    { m.mapValues g with heap := ((m.heap.mapValues g).alloc (c.mapValues g)).2 }) = _
  rw [Heap.alloc_mapValues]
  rfl

theorem define (a : Address) (name : String) (v : Value) :
    Carries g id (define a name v) (Eval.define a name (g v)) := by
  apply modifyGet
  intro m
  show ((), { m.mapValues g with heap := (m.heap.mapValues g).define a name (g v) }) = _
  rw [Heap.define_mapValues]
  rfl

/-- The changed value is bound to the field. -/
theorem setField (a : Address) (name : String) (v : Value) :
    Carries g id (setField a name v) (Eval.setField a name (g v)) := by
  apply modifyGet
  intro m
  show ((), { m.mapValues g with heap := (m.heap.mapValues g).setField a name (g v) }) = _
  rw [Heap.setField_mapValues]
  rfl

/-- The text has been made before. -/
theorem print (text : String) : Carries g id (print text) (Eval.print text) :=
  modifyGet fun _ => rfl

/-! ### Variables

The changed value is read where the value is read, and written where it is written. -/

/-- Found in the same frame or nowhere. -/
theorem read (env : Environment) (name : Token) : Carries g g (read env name) (Eval.read env name) := by
  refine get fun m => ?_
  have hread : env.get? (m.mapValues g).heap name.lexeme = (env.get? m.heap name.lexeme).map g :=
    Environment.get?_mapValues g m.heap env name.lexeme
  rw [hread]
  cases env.get? m.heap name.lexeme with
  | none => exact fail _ _
  | some v => exact pure rfl

theorem assign (env : Environment) (name : Token) (v : Value) :
    Carries g id (assign env name v) (Eval.assign env name (g v)) := by
  refine get fun m => ?_
  have hholder : env.holder? (m.mapValues g).heap name.lexeme = env.holder? m.heap name.lexeme :=
    Environment.holder?_mapValues g m.heap env name.lexeme
  rw [hholder]
  cases env.holder? m.heap name.lexeme with
  | none => exact fail _ _
  | some a => exact define _ _ _

/-- Found by distance, or the same fault. -/
theorem readAt (env : Environment) (distance : Nat) (name : String) :
    Carries g g (readAt env distance name) (Eval.readAt env distance name) := by
  refine get fun m => ?_
  show Carries g g _ (Eval.ofExcept (env.getAt (m.heap.mapValues g) distance name))
  rw [Environment.getAt_mapValues]
  exact ofExcept

theorem assignAt (env : Environment) (distance : Nat) (name : String) (v : Value) :
    Carries g id (assignAt env distance name v) (Eval.assignAt env distance name (g v)) := by
  have hframe : Carries g id (Eval.ofExcept (env.frameAt distance)) (Eval.ofExcept (env.frameAt distance)) := by
    cases env.frameAt distance with
    | ok a => exact pure rfl
    | error f => exact throw (.fault f)
  exact hframe.bind fun a => define a name v

theorem declare (name : Token) (v : Value) : Carries g id (declare name v) (Eval.declare name (g v)) := by
  refine get fun m => ?_
  have henv : (m.mapValues g).environment = m.environment := rfl
  rw [henv]
  cases m.environment with
  | nil => exact pure rfl
  | cons a env => exact define _ _ _

/-- References keep what they note. -/
theorem lookUp (reference : Reference Hops) :
    Carries g g (Runner.lookUp reference) (Runner.lookUp reference) := by
  unfold Runner.lookUp
  cases reference.note with
  | none => exact read _ _
  | some distance => exact get fun _ => readAt _ _ _

theorem assignTo (target : Reference Hops) (v : Value) :
    Carries g id (Runner.assign target v) (Runner.assign target (g v)) := by
  unfold Runner.assign
  cases target.note with
  | none => exact assign _ _ _
  | some distance => exact get fun _ => assignAt _ _ _ _

/-! ### Loops and sequences

A loop looks at whether its body completes, so `ψ` must not make a completion of a `return` or the other way round. -/

/-- If conditions and bodies correspond, then both loops go round equally often. -/
theorem repeatWhile {test test' : Eval Bool} {body body' : Eval Completion} {ψ : Completion → Completion}
    (htest : Carries g id test test') (hbody : Carries g ψ body body') (hcompleted : ψ .completed = .completed)
    (hreturning : ∀ v, ∃ v', ψ (.returning v) = .returning v') (rounds : Nat) :
    Carries g ψ (Runner.repeatWhile test body rounds) (Runner.repeatWhile test' body' rounds) := by
  induction rounds with
  | zero => exact throw _
  | succ rounds ih =>
    refine htest.bind fun b => ?_
    cases b with
    | false => exact pure hcompleted
    | true =>
      refine hbody.bind fun completion => ?_
      cases completion with
      | completed =>
        rw [hcompleted]
        exact ih
      | returning v =>
        obtain ⟨v', hv'⟩ := hreturning v
        rw [hv']
        exact pure hv'

end Eval.Carries

end LoxLang
