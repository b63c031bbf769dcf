import LoxLang.Heap
import Mathlib.Data.List.Forall2
import Mathlib.Data.List.Nodup
import Mathlib.Data.Option.Defs

/-!
# Frames on the heap

What allocating, defining and setting fields do to the frames and instances of a heap, name by name.

* **`Heap.vars_define`**, **`Heap.vars_alloc`**, **`Heap.get?_fields_setField`** — what is read afterwards.
* **`Heap.Le`** — the order in which a heap grows: frames stay frames and keep their names.
-/

namespace LoxLang

/-! ## Options that correspond

Lookups give options, and two lookups that correspond give options that do. -/

section

variable {α β : Type} {R R' : α → β → Prop}

theorem optionRel_imp {a : Option α} {b : Option β} (h : Option.Rel R a b) (himp : ∀ a b, R a b → R' a b) :
    Option.Rel R' a b := by
  cases h with
  | some h => exact .some (himp _ _ h)
  | none => exact .none

/-- There is nothing on either side, or something on both. -/
theorem optionRel_cases {a? : Option α} {b? : Option β} (h : Option.Rel R a? b?) :
    (a? = none ∧ b? = none) ∨ ∃ a b, a? = some a ∧ b? = some b ∧ R a b := by
  cases h with
  | some h => exact .inr ⟨_, _, rfl, rfl, h⟩
  | none => exact .inl ⟨rfl, rfl⟩

/-- The first answers of lists that correspond. -/
theorem optionRel_findSome? {γ δ : Type} {Q : γ → δ → Prop} {as : List α} {bs : List β} {f : α → Option γ}
    {g : β → Option δ} (h : List.Forall₂ R as bs) (hfg : ∀ a b, R a b → Option.Rel Q (f a) (g b)) :
    Option.Rel Q (as.findSome? f) (bs.findSome? g) := by
  induction h with
  | nil => exact .none
  | @cons a b as bs hab _ ih =>
    rw [List.findSome?_cons, List.findSome?_cons]
    obtain ⟨ha, hb⟩ | ⟨c, d, ha, hb, hq⟩ := optionRel_cases (hfg a b hab)
    · rw [ha, hb]
      exact ih
    · rw [ha, hb]
      exact .some hq

end

/-! ## Bindings

A name is bound once. To bind it again replaces the value in its place. -/

namespace Bindings

variable {α : Type}

@[simp] theorem get?_nil (name : String) : get? ([] : Bindings α) name = none := rfl

/-- The new value under its name, and the old ones under others. -/
theorem get?_put (b : Bindings α) (name other : String) (v : α) :
    (b.put name v).get? other = if name = other then some v else b.get? other := by
  induction b with
  | nil => rfl
  | cons binding rest ih =>
    obtain ⟨n, w⟩ := binding
    unfold put
    -- the binding stands here, or further behind
    by_cases hn : n = name
    · rw [if_pos hn]
      unfold get?
      rw [hn]
      split <;> rfl
    · rw [if_neg hn]
      unfold get?
      by_cases ho : n = other
      · rw [if_pos ho, if_pos ho, if_neg fun h => hn (ho.trans h.symm)]
      · rw [if_neg ho, if_neg ho, ih]

/-- The first binding is replaced if it has the name. -/
theorem put_cons (n name : String) (u v : α) (rest : Bindings α) :
    put ((n, u) :: rest) name v = if n = name then (n, v) :: rest else (n, u) :: put rest name v := rfl

/-- Of two bindings of a name the later one counts. -/
theorem put_put (b : Bindings α) (name : String) (v w : α) : (b.put name v).put name w = b.put name w := by
  induction b with
  | nil => exact (put_cons name name v w []).trans (if_pos rfl)
  | cons binding rest ih =>
    obtain ⟨n, u⟩ := binding
    rw [put_cons, put_cons]
    by_cases hn : n = name
    · rw [if_pos hn, if_pos hn, put_cons, if_pos hn]
    · rw [if_neg hn, if_neg hn, put_cons, if_neg hn, ih]

theorem get?_singleton (name other : String) (v : α) :
    get? [(name, v)] other = if name = other then some v else none := rfl

/-- Folding pairs into bindings: the last pair with a name counts. -/
theorem get?_foldl_put (pairs : List (String × α)) (b : Bindings α) (name : String) :
    get? (pairs.foldl (fun b (n, a) => b.put n a) b) name
      = ((pairs.reverse.find? (·.1 == name)).map (·.2)).or (b.get? name) := by
  induction pairs generalizing b with
  | nil => rfl
  | cons pair pairs ih =>
    obtain ⟨n, a⟩ := pair
    rw [List.foldl_cons, ih, List.reverse_cons, List.find?_append, get?_put]
    cases hfind : pairs.reverse.find? (·.1 == name) with
    | some p => rfl
    | none =>
      by_cases hn : n = name <;> simp [hn]

/-- As many values as names bind every name. -/
theorem isSome_get?_ofLists {names : List String} {values : List α} (hlen : values.length = names.length)
    {name : String} (hmem : name ∈ names) : ((ofLists names values).get? name).isSome := by
  obtain ⟨i, hi, rfl⟩ := List.getElem_of_mem hmem
  have hi' : i < values.length := by omega
  have hpair : (names[i], values[i]) ∈ names.zip values := by
    rw [List.mem_iff_getElem]
    exact ⟨i, by rw [List.length_zip]; omega, List.getElem_zip⟩
  rw [ofLists, get?_foldl_put, get?_nil, Option.or_none, Option.isSome_map, List.find?_isSome]
  exact ⟨_, List.mem_reverse.mpr hpair, by simp⟩

/-- With names that are all different, each is bound to its own value. -/
theorem get?_ofLists_of_mem {names : List String} {values : List α} (hnodup : names.Nodup) {name : String}
    {v : α} (hmem : (name, v) ∈ names.zip values) : (ofLists names values).get? name = some v := by
  rw [ofLists, get?_foldl_put, get?_nil, Option.or_none, Option.map_eq_some_iff]
  have hsome : ((names.zip values).reverse.find? (·.1 == name)).isSome := by
    rw [List.find?_isSome]
    exact ⟨_, List.mem_reverse.mpr hmem, by simp⟩
  obtain ⟨⟨n, w⟩, hfind⟩ := Option.isSome_iff_exists.mp hsome
  have hmem' := List.mem_reverse.mp (List.mem_of_find?_eq_some hfind)
  have hname := List.find?_some hfind
  simp only [beq_iff_eq] at hname
  refine ⟨(n, w), hfind, ?_⟩
  -- Both pairs stand at the one place of the name.
  obtain ⟨i, hi, heq⟩ := List.mem_iff_getElem.mp hmem
  obtain ⟨j, hj, heq'⟩ := List.mem_iff_getElem.mp hmem'
  rw [List.getElem_zip, Prod.mk.injEq] at heq heq'
  rw [List.length_zip] at hi hj
  have hi' : i < names.length := by omega
  have hj' : j < names.length := by omega
  have hindex : i = j := hnodup.getElem_inj_iff.mp (heq.1.trans (heq'.1.trans hname).symm)
  subst hindex
  exact heq'.2.symm.trans heq.2

/-- What is bound comes from one of the values, and its name from the names. -/
theorem mem_of_get?_ofLists {names : List String} {values : List α} {name : String} {v : α}
    (h : (ofLists names values).get? name = some v) : name ∈ names ∧ v ∈ values := by
  rw [ofLists, get?_foldl_put, get?_nil, Option.or_none, Option.map_eq_some_iff] at h
  obtain ⟨⟨n, w⟩, hfind, rfl⟩ := h
  have hmem := List.of_mem_zip (List.mem_reverse.mp (List.mem_of_find?_eq_some hfind))
  have hname := List.find?_some hfind
  simp only [beq_iff_eq] at hname
  rw [← hname]
  exact hmem

end Bindings

/-! ## Reading after writing

One lemma for each way to read and each way to write, with the case that the address is the same or the name. -/

namespace Heap

variable {h h' : Heap} {a b : Address} {name other : String} {v : Value}

/-- A frame lies at the address. -/
def IsFrame (h : Heap) (a : Address) : Prop :=
  ∃ vars, h.cells[a]? = some (.frame vars)

/-- The frame at the address binds the name. -/
def Binds (h : Heap) (a : Address) (name : String) : Prop :=
  ((h.vars a).get? name).isSome

/-- Only frames bind names. -/
theorem Binds.isFrame (hb : h.Binds a name) : h.IsFrame a := by
  unfold Binds vars at hb
  split at hb
  case h_1 vars hcell => exact ⟨vars, hcell⟩
  case h_2 => cases hb

/-- A frame is a cell of the heap. -/
theorem IsFrame.lt_size (hf : h.IsFrame a) : a < h.cells.size := by
  obtain ⟨vars, hcell⟩ := hf
  exact (Array.getElem?_eq_some_iff.mp hcell).1

/-- The cell of a frame holds its variables. -/
theorem IsFrame.cell_eq (hf : h.IsFrame a) : h.cells[a]? = some (.frame (h.vars a)) := by
  obtain ⟨vars, hcell⟩ := hf
  rw [Heap.vars, hcell]

/-- The cells after a new one was added. -/
theorem getElem?_alloc (h : Heap) (c : Cell) (a : Address) :
    (h.alloc c).2.cells[a]? = if a = h.cells.size then some c else h.cells[a]? :=
  Array.getElem?_push

/-- The variables after a new cell was added. -/
theorem vars_alloc (h : Heap) (c : Cell) (a : Address) :
    (h.alloc c).2.vars a
      = if a = h.cells.size then (match c with | .frame vars => vars | _ => []) else h.vars a := by
  unfold vars
  rw [getElem?_alloc]
  by_cases ha : a = h.cells.size
  · rw [if_pos ha, if_pos ha]
    cases c <;> rfl
  · rw [if_neg ha, if_neg ha]

/-- The fields after a new cell was added. -/
theorem fields_alloc (h : Heap) (c : Cell) (a : Address) :
    (h.alloc c).2.fields a
      = if a = h.cells.size then (match c with | .fields fields => fields | _ => []) else h.fields a := by
  unfold fields
  rw [getElem?_alloc]
  by_cases ha : a = h.cells.size
  · rw [if_pos ha, if_pos ha]
    cases c <;> rfl
  · rw [if_neg ha, if_neg ha]

/-- Only the cell at the address changes, and only if it is a frame. -/
theorem getElem?_define (h : Heap) (a : Address) (name : String) (v : Value) (b : Address) :
    (h.define a name v).cells[b]?
      = if a = b then h.cells[b]?.map (fun | .frame vars => .frame (vars.put name v) | c => c)
        else h.cells[b]? :=
  Array.getElem?_modify

/-- Only the cell at the address changes, and only if it holds fields. -/
theorem getElem?_setField (h : Heap) (a : Address) (name : String) (v : Value) (b : Address) :
    (h.setField a name v).cells[b]?
      = if a = b then h.cells[b]?.map (fun | .fields fields => .fields (fields.put name v) | c => c)
        else h.cells[b]? :=
  Array.getElem?_modify

/-- A definition in a frame is read back there and changes nothing else. -/
theorem vars_define (hf : h.IsFrame a) (b : Address) (other : String) :
    ((h.define a name v).vars b).get? other
      = if a = b ∧ name = other then some v else (h.vars b).get? other := by
  unfold vars
  rw [getElem?_define]
  by_cases hab : a = b
  · subst hab
    rw [if_pos rfl, hf.cell_eq]
    simp only [Option.map_some, Bindings.get?_put, true_and]
  · rw [if_neg hab, if_neg fun h => hab h.1]

/-- A definition at an address without a frame changes nothing. -/
theorem define_of_not_isFrame (hf : ¬ h.IsFrame a) : h.define a name v = h := by
  obtain ⟨cells⟩ := h
  unfold define
  congr 1
  apply Array.ext_getElem?
  intro b
  rw [Array.getElem?_modify]
  by_cases hab : a = b
  · subst hab
    rw [if_pos rfl]
    rcases hcell : cells[a]? with _ | (vars | _ | _)
    · rfl
    · exact absurd ⟨vars, hcell⟩ hf
    · rfl
    · rfl
  · rw [if_neg hab]

/-- Of two definitions of a name the later one counts. -/
theorem define_define (h : Heap) (a : Address) (name : String) (v w : Value) :
    (h.define a name v).define a name w = h.define a name w := by
  have hcells : ((h.define a name v).define a name w).cells = (h.define a name w).cells := by
    apply Array.ext_getElem?
    intro b
    rw [getElem?_define, getElem?_define, getElem?_define]
    by_cases hab : a = b
    · rw [if_pos hab, if_pos hab, if_pos hab]
      rcases h.cells[b]? with _ | (vars | _ | _)
      · rfl
      · simp only [Option.map_some, Bindings.put_put]
      · rfl
      · rfl
    · rw [if_neg hab, if_neg hab, if_neg hab]
  exact congrArg Heap.mk hcells

/-- A definition does not depend on later cells. -/
theorem alloc_define (hf : h.IsFrame a) (name : String) (v : Value) (k : Cell) :
    ((h.define a name v).alloc k).2 = (h.alloc k).2.define a name v := by
  have hsize : (h.define a name v).cells.size = h.cells.size := Array.size_modify
  have hcells : ((h.define a name v).alloc k).2.cells = ((h.alloc k).2.define a name v).cells := by
    apply Array.ext_getElem?
    intro b
    rw [getElem?_alloc, getElem?_define, getElem?_define, getElem?_alloc, hsize]
    by_cases hb : b = h.cells.size
    · -- the new cell is not the frame, which was there before
      have hab : a ≠ b := by
        rw [hb]
        exact Nat.ne_of_lt hf.lt_size
      rw [if_pos hb, if_neg hab, if_pos hb]
    · rw [if_neg hb, if_neg hb]
  exact congrArg Heap.mk hcells

/-- Variables are no fields. -/
@[simp] theorem fields_define (h : Heap) (a : Address) (name : String) (v : Value) (b : Address) :
    (h.define a name v).fields b = h.fields b := by
  unfold fields
  rw [getElem?_define]
  by_cases hab : a = b
  · rw [if_pos hab]
    rcases h.cells[b]? with _ | (_ | _ | _) <;> rfl
  · rw [if_neg hab]

/-- Fields are no variables. -/
@[simp] theorem vars_setField (h : Heap) (a : Address) (name : String) (v : Value) (b : Address) :
    (h.setField a name v).vars b = h.vars b := by
  unfold vars
  rw [getElem?_setField]
  by_cases hab : a = b
  · rw [if_pos hab]
    rcases h.cells[b]? with _ | (_ | _ | _) <;> rfl
  · rw [if_neg hab]

/-- A field that is set is read back, and no other field changes. -/
theorem get?_fields_setField {w : Value}
    (hw : ((h.setField a name v).fields b).get? other = some w) :
    (a = b ∧ name = other ∧ w = v) ∨ (h.fields b).get? other = some w := by
  unfold fields at hw ⊢
  rw [getElem?_setField] at hw
  by_cases hab : a = b
  · rw [if_pos hab] at hw
    rcases hcell : h.cells[b]? with _ | (_ | fields | _)
    · rw [hcell] at hw
      cases hw
    · rw [hcell] at hw
      cases hw
    · rw [hcell] at hw
      simp only [Option.map_some, Bindings.get?_put] at hw
      split at hw
      case isTrue hname => exact Or.inl ⟨hab, hname, (Option.some.inj hw).symm⟩
      case isFalse => exact Or.inr hw
    · rw [hcell] at hw
      cases hw
  · rw [if_neg hab] at hw
    exact Or.inr hw

/-! ## Growth

Along a run the heap only grows. What is known about frames stays true, so facts about environments need to be shown
only where the environments are made. -/

/-- How a heap grows: a frame stays a frame, and a name that is bound stays bound. -/
structure Le (h h' : Heap) : Prop where
  frames : ∀ {a}, h.IsFrame a → h'.IsFrame a
  bindings : ∀ {a name}, h.Binds a name → h'.Binds a name

theorem Le.refl (h : Heap) : h.Le h :=
  ⟨id, id⟩

theorem Le.trans {h'' : Heap} (h₁ : h.Le h') (h₂ : h'.Le h'') : h.Le h'' :=
  ⟨fun hf => h₂.frames (h₁.frames hf), fun hb => h₂.bindings (h₁.bindings hb)⟩

/-- A new cell leaves the others alone. -/
theorem le_alloc (h : Heap) (c : Cell) : h.Le (h.alloc c).2 := by
  constructor
  · intro a hf
    have hne : a ≠ h.cells.size := Nat.ne_of_lt hf.lt_size
    obtain ⟨vars, hcell⟩ := hf
    exact ⟨vars, by rw [getElem?_alloc, if_neg hne, hcell]⟩
  · intro a name hb
    have hne : a ≠ h.cells.size := Nat.ne_of_lt hb.isFrame.lt_size
    unfold Binds
    rwa [vars_alloc, if_neg hne]

/-- The new cell is a frame if it was made as one. -/
theorem isFrame_alloc (h : Heap) (vars : Bindings Value) : (h.alloc (.frame vars)).2.IsFrame h.cells.size :=
  ⟨vars, by rw [getElem?_alloc, if_pos rfl]⟩

/-- Frames stay frames. -/
theorem isFrame_define (hf : h.IsFrame b) : (h.define a name v).IsFrame b := by
  unfold IsFrame
  rw [getElem?_define, hf.cell_eq]
  split
  · exact ⟨_, rfl⟩
  · exact ⟨_, rfl⟩

/-- The name is bound where it was defined. -/
theorem binds_define (hf : h.IsFrame a) : (h.define a name v).Binds a name := by
  unfold Binds
  rw [vars_define hf, if_pos ⟨rfl, rfl⟩]
  rfl

/-- A binding is added or replaced. -/
theorem le_define (h : Heap) (a : Address) (name : String) (v : Value) : h.Le (h.define a name v) := by
  by_cases hf : h.IsFrame a
  · refine ⟨isFrame_define, fun {b other} hb => ?_⟩
    unfold Binds
    rw [vars_define hf]
    split
    · rfl
    · exact hb
  · rw [define_of_not_isFrame hf]
    exact .refl h

/-- Frames are not touched. -/
theorem le_setField (h : Heap) (a : Address) (name : String) (v : Value) : h.Le (h.setField a name v) := by
  constructor
  · intro b hf
    unfold IsFrame
    rw [getElem?_setField, hf.cell_eq]
    split
    · exact ⟨_, rfl⟩
    · exact ⟨_, rfl⟩
  · intro b other hb
    unfold Binds
    rwa [vars_setField]

end Heap

/-- The value of a name lies in the frame that holds the name. -/
theorem Environment.get?_eq_holder (env : Environment) (h : Heap) (name : String) :
    env.get? h name = (env.holder? h name).bind fun a => (h.vars a).get? name := by
  unfold Environment.get? Environment.holder?
  induction env with
  | nil => rfl
  | cons a env ih =>
    rw [List.findSome?_cons, List.find?_cons]
    cases hget : (h.vars a).get? name with
    | none => exact ih
    | some v => exact hget.symm

end LoxLang
