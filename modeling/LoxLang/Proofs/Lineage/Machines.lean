import LoxLang.Proofs.Lineage.Births
import LoxLang.Proofs.Run.Outcomes
import LoxLang.Proofs.Run.Sessions

/-!
# Machines with a lineage

* **`Machine.Descends`** — everything on a machine was allocated as a lineage says, in the order of the addresses.
* **`Machine.Evolves`** — what a run leaves: a machine with a longer lineage, on which no frame has lost a name.
* **`Machine.During`** — a machine that is met between two heaps.
-/

namespace LoxLang

/-! ## What lies at an address

Writing to a cell does not change which sort of cell it is. -/

/-- The sorts of cells. -/
inductive Shape where
  | frame | fields | identity
deriving DecidableEq

/-- The sort of a cell. -/
def Cell.shape : Cell → Shape
  | .frame _ => .frame
  | .fields _ => .fields
  | .identity => .identity

/-- The sort of cell that something gets. -/
def Birth.shape : Birth → Shape
  | .frame _ => .frame
  | .object _ => .fields
  | .function _ | .class _ => .identity

namespace Heap

variable {h : Heap} {a : Address}

/-- A frame is a cell of this sort. -/
theorem isFrame_iff (h : Heap) (a : Address) : h.IsFrame a ↔ h.cells[a]?.map Cell.shape = some .frame := by
  rw [Option.map_eq_some_iff]
  constructor
  · rintro ⟨vars, hcell⟩
    exact ⟨_, hcell, rfl⟩
  · rintro ⟨c, hcell, hshape⟩
    cases c with
    | frame vars => exact ⟨vars, hcell⟩
    | fields | identity => cases hshape

/-- To bind a name leaves every cell of its sort. -/
theorem shape_define (h : Heap) (a : Address) (name : String) (v : Value) (b : Address) :
    (h.define a name v).cells[b]?.map Cell.shape = h.cells[b]?.map Cell.shape := by
  rw [getElem?_define]
  split
  · rcases h.cells[b]? with _ | (_ | _ | _) <;> rfl
  · rfl

/-- To set a field does too. -/
theorem shape_setField (h : Heap) (a : Address) (name : String) (v : Value) (b : Address) :
    (h.setField a name v).cells[b]?.map Cell.shape = h.cells[b]?.map Cell.shape := by
  rw [getElem?_setField]
  split
  · rcases h.cells[b]? with _ | (_ | _ | _) <;> rfl
  · rfl

end Heap

/-! ## Heaps

A heap descends from a lineage if cell by cell it has the sort that the lineage says and holds known values only. -/

/-- What a cell holds is known. -/
def Cell.Known (L : Lineage) : Cell → Prop
  | .frame bindings | .fields bindings => ∀ name v, bindings.get? name = some v → L.Knows v
  | .identity => True

/-- The heap is made up of what the lineage says, and holds nothing else. -/
structure Heap.Descends (L : Lineage) (h : Heap) : Prop where
  length : L.length = h.cells.size
  shapes : ∀ a : Address, L[a]?.map Birth.shape = h.cells[a]?.map Cell.shape
  ordered : L.Ordered
  globals : L.Sees .globals
  vars : ∀ {a name v}, (h.vars a).get? name = some v → L.Knows v
  fields : ∀ {a name v}, (h.fields a).get? name = some v → L.Knows v

namespace Heap.Descends

variable {L : Lineage} {h : Heap}

/-- The frames of the heap are those that were allocated as frames. -/
theorem isFrame_iff (hL : h.Descends L) (a : Address) : h.IsFrame a ↔ ∃ around, L[a]? = some (.frame around) := by
  rw [Heap.isFrame_iff, ← hL.shapes a, Option.map_eq_some_iff]
  constructor
  · rintro ⟨b, hb, hshape⟩
    cases b with
    | frame around => exact ⟨around, hb⟩
    | function | «class» | object => cases hshape
  · rintro ⟨around, hb⟩
    exact ⟨_, hb, rfl⟩

/-- A cell more, for something that can be allocated next. -/
theorem alloc (hL : h.Descends L) {b : Birth} {c : Cell} (hb : b.From L) (hshape : b.shape = c.shape)
    (hc : c.Known L) : (h.alloc c).2.Descends (L ++ [b]) where
  length := by
    rw [List.length_append, hL.length]
    exact (Array.size_push _).symm
  shapes a := by
    rw [getElem?_alloc]
    split
    case isTrue hnew =>
      rw [hnew, ← hL.length, List.getElem?_concat_length]
      exact congrArg some hshape
    case isFalse hold =>
      rw [← hL.shapes a]
      rw [← hL.length] at hold
      -- older addresses are as they were; none lies beyond the new one
      rcases Nat.lt_or_gt_of_ne hold with hlt | hgt
      · rw [List.getElem?_append_left hlt]
      · rw [List.getElem?_eq_none (Nat.le_of_lt hgt), List.getElem?_eq_none]
        rw [List.length_append]
        exact hgt
  ordered := hL.ordered.snoc hb
  globals := hL.globals.mono (List.prefix_append L [b])
  vars {a name v} hv := by
    apply Lineage.Knows.mono _ (List.prefix_append L [b])
    rw [vars_alloc] at hv
    split at hv
    · cases c with
      | frame bindings => exact hc name v hv
      | fields | identity => cases hv
    · exact hL.vars hv
  fields {a name v} hv := by
    apply Lineage.Knows.mono _ (List.prefix_append L [b])
    rw [fields_alloc] at hv
    split at hv
    · cases c with
      | fields bindings => exact hc name v hv
      | frame | identity => cases hv
    · exact hL.fields hv

/-- The value that is bound is known. -/
theorem define (hL : h.Descends L) {v : Value} (hv : L.Knows v) (a : Address) (name : String) :
    (h.define a name v).Descends L := by
  by_cases hframe : h.IsFrame a
  · constructor
    case length => exact hL.length.trans Array.size_modify.symm
    case shapes => exact fun b => (hL.shapes b).trans (h.shape_define a name v b).symm
    case ordered => exact hL.ordered
    case globals => exact hL.globals
    case vars =>
      intro b other w hw
      rw [vars_define hframe] at hw
      split at hw
      · cases hw
        exact hv
      · exact hL.vars hw
    case fields =>
      intro b other w hw
      rw [fields_define] at hw
      exact hL.fields hw
  · -- no frame, no change
    rwa [define_of_not_isFrame hframe]

/-- The value of the field is known. -/
theorem setField (hL : h.Descends L) {v : Value} (hv : L.Knows v) (a : Address) (name : String) :
    (h.setField a name v).Descends L where
  length := hL.length.trans Array.size_modify.symm
  shapes b := (hL.shapes b).trans (h.shape_setField a name v b).symm
  ordered := hL.ordered
  globals := hL.globals
  vars {b other w} hw := by
    rw [vars_setField] at hw
    exact hL.vars hw
  fields {b other w} hw := by
    rcases get?_fields_setField hw with ⟨-, -, rfl⟩ | hold
    · exact hv
    · exact hL.fields hold

end Heap.Descends

/-! ## Machines

The environment of a machine is seen by its lineage. A run may stop anywhere, and the machine that it leaves still
descends from some lineage. -/

namespace Machine

/-- All that is on a machine was allocated as the lineage says. -/
structure Descends (L : Lineage) (m : Machine) : Prop where
  heap : m.heap.Descends L
  environment : L.Sees m.environment

/-- What a run leaves: only more has been allocated, and all names are bound that were. The run ends in the
environment it began in. -/
structure Evolves (L L' : Lineage) (m m' : Machine) : Prop where
  kept : L <+: L'
  descends : m'.Descends L'
  le : m.heap.Le m'.heap
  environment : m'.environment = m.environment

/-- A machine between two heaps. What has been allocated by then is the beginning of the lineage. -/
structure During (L : Lineage) (h h' : Heap) (m : Machine) : Prop where
  descends : m.Descends (L.take m.heap.cells.size)
  since : h.Le m.heap
  till : m.heap.Le h'

variable {L L' L'' : Lineage} {m m' m'' : Machine} {h h' : Heap}

theorem Evolves.refl (hm : m.Descends L) : m.Evolves L L m :=
  ⟨List.prefix_rfl, hm, .refl _, rfl⟩

theorem Evolves.trans (hev : m.Evolves L L' m') (hev' : m'.Evolves L' L'' m'') : m.Evolves L L'' m'' :=
  ⟨hev.kept.trans hev'.kept, hev'.descends, hev.le.trans hev'.le, hev'.environment.trans hev.environment⟩

theorem Evolves.sees (hev : m.Evolves L L' m') {env : Environment} (h : L.Sees env) : L'.Sees env :=
  h.mono hev.kept

/-- A machine is met before what it turns into. -/
theorem Descends.during (hm : m.Descends L) (hkept : L <+: L') (hle : m.heap.Le h') : m.During L' m.heap h' := by
  refine ⟨?_, .refl _, hle⟩
  rwa [← hm.heap.length, ← List.prefix_iff_eq_take.mp hkept]

/-- What is met before a point is met before any later one. -/
theorem During.mono (hm : m.During L h h') (hkept : L <+: L') {h'' : Heap} (hle : h'.Le h'') : m.During L' h h'' := by
  refine ⟨?_, hm.since, hm.till.trans hle⟩
  -- the machine has no more cells than the shorter lineage says
  have hsize : m.heap.cells.size ≤ L.length := by
    have hlength := hm.descends.heap.length
    rw [List.length_take] at hlength
    omega
  obtain ⟨new, rfl⟩ := hkept
  rw [List.take_append_of_le_length hsize]
  exact hm.descends

/-- A machine that is met after one heap is met after those before it. -/
theorem During.after (hm : m.During L h h') {h₀ : Heap} (hle : h₀.Le h) : m.During L h₀ h' :=
  ⟨hm.descends, hle.trans hm.since, hm.till⟩

/-! ## The first machine

There are the globals, and nothing else. -/

/-- Before anything was run there are the globals alone. -/
theorem descends_initial : Machine.initial.Descends [.frame []] where
  heap := {
    length := rfl
    shapes := fun a => by
      cases a <;> rfl
    ordered := Lineage.Ordered.snoc (L := []) (fun a b hb => by cases hb) (.inl ⟨rfl, rfl⟩)
    globals := rfl
    vars := fun hv => by
      obtain ⟨-, rfl⟩ := get?_vars_initial hv
      trivial
    fields := fun hv => by
      rw [get?_fields_initial] at hv
      cases hv }
  environment := rfl

end Machine

end LoxLang
