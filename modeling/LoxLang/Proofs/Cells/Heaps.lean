import LoxLang.Proofs.Cells.World

/-!
# Heaps that are alike

What keeps a heap of frames and a heap of cells alike. Steps on one side must not touch what corresponds; steps on
both sides touch what corresponds in the same way. A world is extended by what is new on both sides.

* **`Heap.Alike.allocPlace`** — a name that a frame binds, and a new cell for it.
* **`Heap.Alike.assign`**, **`Heap.Alike.assignGlobal`** — a change of what corresponds.
* **`Environment.Mirrors.holder_of_hops`** — the first cell of a name is the one at the distance of the name.
-/

namespace LoxLang

/-- Instances with fields that are alike, or identities. -/
inductive Cell.Alike (W : World) : Cell → Cell → Prop where
  | fields {fs gs : Bindings Value}
    (h : ∀ name, Option.Rel (Value.Alike W) (fs.get? name) (gs.get? name)) : Alike W (.fields fs) (.fields gs)
  | identity : Alike W .identity .identity

theorem Cell.Alike.mono {W W' : World} {here : Option Address} {k k' : Cell} (h : k.Alike W k')
    (hgrows : W.Grows W' here) : k.Alike W' k' := by
  cases h with
  | fields hfields => exact .fields fun name => optionRel_imp (hfields name) fun _ _ hv => hv.mono hgrows
  | identity => exact .identity

/-- A heap of frames and a heap of cells that hold the same under a world. -/
structure Heap.Alike (W : World) (h h' : Heap) : Prop where
  frames : ∀ {a}, W.frame a → a ≠ 0 ∧ h.IsFrame a
  places : ∀ {a name c}, W.place a name c → c ≠ 0 ∧ ∃ v w, (h.vars a).get? name = some v ∧
    h'.cells[c]? = some (.frame [(name, w)]) ∧ v.Alike W w
  twins : ∀ {b c}, W.twin b c → ∃ k k', h.cells[b]? = some k ∧ h'.cells[c]? = some k' ∧ k.Alike W k'
  outermost : h.IsFrame 0 ∧ h'.IsFrame 0
  globals : ∀ name, Option.Rel (Value.Alike W) ((h.vars 0).get? name) ((h'.vars 0).get? name)

/-! ## Extending a world

Only what is new may be added, so that no name gets a second cell and no identity a second twin. -/

namespace World

/-- A world with one more frame, which has no names yet. -/
def addFrame (W : World) (a : Address) : World :=
  { W with
    frame := fun b => b = a ∨ W.frame b
    frame_of_place := fun h => Or.inr (W.frame_of_place h) }

/-- A world in which one more name of a frame has a cell. -/
def addPlace (W : World) {a c : Address} {name : String} (hframe : W.frame a)
    (hname : ∀ c', ¬ W.place a name c') (hcell : ∀ a' name', ¬ W.place a' name' c) : World :=
  { W with
    place := fun a' name' c' => (a' = a ∧ name' = name ∧ c' = c) ∨ W.place a' name' c'
    frame_of_place := by
      rintro a' name' c' (⟨rfl, -, -⟩ | h)
      · exact hframe
      · exact W.frame_of_place h
    place_right := by
      rintro a' name' c₁ c₂ (⟨rfl, rfl, rfl⟩ | h₁) (⟨ha, hn, rfl⟩ | h₂)
      · rfl
      · exact absurd h₂ (hname _)
      · exact absurd (ha ▸ hn ▸ h₁) (hname _)
      · exact W.place_right h₁ h₂
    place_left := by
      rintro a₁ n₁ c' a₂ n₂ (⟨rfl, rfl, rfl⟩ | h₁) (⟨rfl, rfl, hc⟩ | h₂)
      · exact ⟨rfl, rfl⟩
      · exact absurd h₂ (hcell _ _)
      · exact absurd (hc ▸ h₁) (hcell _ _)
      · exact W.place_left h₁ h₂ }

/-- A world with one more identity on both sides. -/
def addTwin (W : World) {b c : Address} (hb : ∀ c', ¬ W.twin b c') (hc : ∀ b', ¬ W.twin b' c) : World :=
  { W with
    twin := fun b' c' => (b' = b ∧ c' = c) ∨ W.twin b' c'
    twin_right := by
      rintro b' c₁ c₂ (⟨rfl, rfl⟩ | h₁) (⟨h, rfl⟩ | h₂)
      · rfl
      · exact absurd h₂ (hb _)
      · exact absurd (h ▸ h₁) (hb _)
      · exact W.twin_right h₁ h₂
    twin_left := by
      rintro b₁ b₂ c' (⟨rfl, rfl⟩ | h₁) (⟨rfl, h⟩ | h₂)
      · rfl
      · exact absurd h₂ (hc _)
      · exact absurd (h ▸ h₁) (hc _)
      · exact W.twin_left h₁ h₂ }

variable (W : World) {a b c : Address} {name : String}

theorem grows_addFrame (here : Option Address) : W.Grows (W.addFrame a) here :=
  ⟨Or.inr, id, id, fun _ _ h => h⟩

theorem grows_addPlace (hframe : W.frame a) (hname : ∀ c', ¬ W.place a name c')
    (hcell : ∀ a' name', ¬ W.place a' name' c) : W.Grows (W.addPlace hframe hname hcell) (some a) := by
  refine ⟨id, Or.inr, id, fun {b _ _} _ hne h => ?_⟩
  rcases h with ⟨rfl, -, -⟩ | h
  · exact absurd rfl hne
  · exact h

theorem grows_addTwin (hb : ∀ c', ¬ W.twin b c') (hc : ∀ b', ¬ W.twin b' c) (here : Option Address) :
    W.Grows (W.addTwin hb hc) here :=
  ⟨id, id, Or.inr, fun _ _ h => h⟩

end World

/-! ## Steps on one side

A frame is made on one side only, and so are the cells of parameters. These steps leave alone what corresponds. -/

namespace Heap.Alike

variable {W : World} {h h' h₁ : Heap} {a b c : Address} {name : String} {v w : Value}

/-- The heap of frames may change where nothing corresponds. -/
theorem left (halike : h.Alike W h') (hle : h.Le h₁)
    (hplaces : ∀ {a name c}, W.place a name c → (h₁.vars a).get? name = (h.vars a).get? name)
    (htwins : ∀ {b c}, W.twin b c → h₁.cells[b]? = h.cells[b]?)
    (hglobals : ∀ name, (h₁.vars 0).get? name = (h.vars 0).get? name) : h₁.Alike W h' where
  frames hf := ⟨(halike.frames hf).1, hle.frames (halike.frames hf).2⟩
  places hp := by
    rw [hplaces hp]
    exact halike.places hp
  twins ht := by
    rw [htwins ht]
    exact halike.twins ht
  outermost := ⟨hle.frames halike.outermost.1, halike.outermost.2⟩
  globals name := by
    rw [hglobals name]
    exact halike.globals name

/-- A frame of the world is on the heap. -/
theorem frame_lt (halike : h.Alike W h') (hf : W.frame a) : a < h.cells.size :=
  (halike.frames hf).2.lt_size

/-- Identities that correspond are on the heaps. -/
theorem twin_lt (halike : h.Alike W h') (ht : W.twin b c) : b < h.cells.size ∧ c < h'.cells.size := by
  obtain ⟨k, k', hk, hk', -⟩ := halike.twins ht
  exact ⟨(Array.getElem?_eq_some_iff.mp hk).1, (Array.getElem?_eq_some_iff.mp hk').1⟩

/-- A cell of the world is on the heap. -/
theorem place_lt (halike : h.Alike W h') (hp : W.place a name c) : c < h'.cells.size := by
  obtain ⟨-, v, w, -, hcell, -⟩ := halike.places hp
  exact (Array.getElem?_eq_some_iff.mp hcell).1

/-- A new cell on the side of frames. -/
theorem allocLeft (halike : h.Alike W h') (k : Cell) : (h.alloc k).2.Alike W h' := by
  refine halike.left (h.le_alloc k) (fun {a _ _} hp => ?_) (fun ht => ?_) fun _ => ?_
  · rw [vars_alloc, if_neg (Nat.ne_of_lt (halike.frame_lt (W.frame_of_place hp)))]
  · rw [getElem?_alloc, if_neg (Nat.ne_of_lt (halike.twin_lt ht).1)]
  · rw [vars_alloc, if_neg (Nat.ne_of_lt halike.outermost.1.lt_size)]

/-- A new cell on the side of cells. -/
theorem allocRight (halike : h.Alike W h') (k : Cell) : h.Alike W (h'.alloc k).2 where
  frames := halike.frames
  places hp := by
    rw [getElem?_alloc, if_neg (Nat.ne_of_lt (halike.place_lt hp))]
    exact halike.places hp
  twins ht := by
    rw [getElem?_alloc, if_neg (Nat.ne_of_lt (halike.twin_lt ht).2)]
    exact halike.twins ht
  outermost := ⟨halike.outermost.1, (h'.le_alloc k).frames halike.outermost.2⟩
  globals name := by
    rw [vars_alloc, if_neg (Nat.ne_of_lt halike.outermost.2.lt_size)]
    exact halike.globals name

/-- No identity or instance lies where a frame lies. -/
theorem twin_ne_frame (halike : h.Alike W h') (ht : W.twin b c) (hf : h.IsFrame a) : a ≠ b := by
  rintro rfl
  obtain ⟨k, k', hk, -, hkind⟩ := halike.twins ht
  rw [hf.cell_eq] at hk
  cases hk
  cases hkind

/-- Identities are not frames. -/
theorem twin_ne_cell (halike : h.Alike W h') (ht : W.twin b c) (hf : h'.IsFrame a) : a ≠ c := by
  rintro rfl
  obtain ⟨k, k', -, hk', hkind⟩ := halike.twins ht
  rw [hf.cell_eq] at hk'
  cases hk'
  cases hkind

/-- A frame binds a name that has no cell. -/
theorem defineLeft (halike : h.Alike W h') (hframe : W.frame a) (hname : ∀ c, ¬ W.place a name c) (v : Value) :
    (h.define a name v).Alike W h' := by
  obtain ⟨hne, hf⟩ := halike.frames hframe
  refine halike.left (h.le_define a name v) (fun {b other c} hp => ?_) (fun ht => ?_) fun other => ?_
  · rw [vars_define hf, if_neg]
    rintro ⟨rfl, rfl⟩
    exact hname c hp
  · rw [getElem?_define, if_neg (halike.twin_ne_frame ht hf)]
  · rw [vars_define hf, if_neg]
    rintro ⟨rfl, -⟩
    exact hne rfl

/-! ## Extending the world of heaps

The heaps were alike before, and what is added to the world is looked up on them as they are now. -/

/-- A heap stays alike under a larger world if what is new in the world lies in it. -/
theorem grow {W' : World} {here : Option Address} (halike : h.Alike W h') (hgrows : W.Grows W' here)
    (hframes : ∀ {a}, W'.frame a → W.frame a ∨ a ≠ 0 ∧ h.IsFrame a)
    (hplaces : ∀ {a name c}, W'.place a name c → W.place a name c ∨ c ≠ 0 ∧ ∃ v w,
      (h.vars a).get? name = some v ∧ h'.cells[c]? = some (.frame [(name, w)]) ∧ v.Alike W w)
    (htwins : ∀ {b c}, W'.twin b c → W.twin b c ∨ ∃ k k',
      h.cells[b]? = some k ∧ h'.cells[c]? = some k' ∧ k.Alike W k') : h.Alike W' h' where
  -- for each part of the world: it was there before, or it is new and has just been looked at
  frames hf := by
    rcases hframes hf with hf | hf
    · exact halike.frames hf
    · exact hf
  places hp := by
    have hcell := hplaces hp
    rw [or_iff_right_of_imp halike.places] at hcell
    obtain ⟨hc, v, w, hv, hw, hvw⟩ := hcell
    exact ⟨hc, v, w, hv, hw, hvw.mono hgrows⟩
  twins ht := by
    have hcells := htwins ht
    rw [or_iff_right_of_imp halike.twins] at hcells
    obtain ⟨k, k', hk, hk', hkind⟩ := hcells
    exact ⟨k, k', hk, hk', hkind.mono hgrows⟩
  outermost := halike.outermost
  globals name := optionRel_imp (halike.globals name) fun _ _ hv => hv.mono hgrows

theorem addFrame (halike : h.Alike W h') (hne : a ≠ 0) (hf : h.IsFrame a) : h.Alike (W.addFrame a) h' := by
  refine halike.grow (W.grows_addFrame none) ?_ Or.inl Or.inl
  rintro b (rfl | hframe)
  · exact Or.inr ⟨hne, hf⟩
  · exact Or.inl hframe

theorem addPlace (halike : h.Alike W h') (hframe : W.frame a) (hname : ∀ c', ¬ W.place a name c')
    (hcell : ∀ a' name', ¬ W.place a' name' c) (hc : c ≠ 0) (hv : (h.vars a).get? name = some v)
    (hw : h'.cells[c]? = some (.frame [(name, w)])) (hvw : v.Alike W w) :
    h.Alike (W.addPlace hframe hname hcell) h' := by
  refine halike.grow (W.grows_addPlace hframe hname hcell) Or.inl ?_ Or.inl
  rintro a' name' c' (⟨rfl, rfl, rfl⟩ | hp)
  · exact Or.inr ⟨hc, v, w, hv, hw, hvw⟩
  · exact Or.inl hp

/-- New identities or instances on both sides. -/
theorem allocTwin (halike : h.Alike W h') {k k' : Cell} (hkind : k.Alike W k') :
    ∃ W', W.Grows W' none ∧ W'.twin h.cells.size h'.cells.size ∧
      (h.alloc k).2.Alike W' (h'.alloc k').2 := by
  have hb : ∀ c', ¬ W.twin h.cells.size c' := fun c' ht => Nat.lt_irrefl _ (halike.twin_lt ht).1
  have hc : ∀ b', ¬ W.twin b' h'.cells.size := fun b' ht => Nat.lt_irrefl _ (halike.twin_lt ht).2
  have hgrows := W.grows_addTwin hb hc none
  -- The new cells correspond to nothing in the old world, and to each other in the new one.
  have hboth := (halike.allocLeft k).allocRight k'
  refine ⟨W.addTwin hb hc, hgrows, Or.inl ⟨rfl, rfl⟩, hboth.grow hgrows Or.inl Or.inl ?_⟩
  rintro b' c' (⟨rfl, rfl⟩ | ht)
  · refine Or.inr ⟨k, k', ?_, ?_, hkind⟩
    · rw [getElem?_alloc, if_pos rfl]
    · rw [getElem?_alloc, if_pos rfl]
  · exact Or.inl ht

/-- A name that a frame binds gets a new cell. -/
theorem allocPlace (halike : h.Alike W h') (hframe : W.frame a) (hname : ∀ c', ¬ W.place a name c')
    (hv : (h.vars a).get? name = some v) (hvw : v.Alike W w) :
    ∃ W', W.Grows W' (some a) ∧ W'.place a name h'.cells.size ∧
      (∀ {name' c'}, W'.place a name' c' → name' = name ∨ W.place a name' c') ∧
      h.Alike W' (h'.alloc (.frame [(name, w)])).2 := by
  have hcell : ∀ a' name', ¬ W.place a' name' h'.cells.size :=
    fun a' name' hp => Nat.lt_irrefl _ (halike.place_lt hp)
  have hpos : h'.cells.size ≠ 0 := Nat.ne_of_gt (Nat.zero_lt_of_lt halike.outermost.2.lt_size)
  have hw : (h'.alloc (.frame [(name, w)])).2.cells[h'.cells.size]? = some (.frame [(name, w)]) := by
    rw [getElem?_alloc, if_pos rfl]
  refine ⟨W.addPlace hframe hname hcell, W.grows_addPlace hframe hname hcell, Or.inl ⟨rfl, rfl, rfl⟩, ?_,
    (halike.allocRight _).addPlace hframe hname hcell hpos hv hw hvw⟩
  rintro name' c' (⟨-, rfl, -⟩ | hp)
  · exact Or.inl rfl
  · exact Or.inr hp

/-- A new frame on the side of frames. -/
theorem allocFrame (halike : h.Alike W h') (vars : Bindings Value) :
    (h.alloc (.frame vars)).2.Alike (W.addFrame h.cells.size) h' ∧ ¬ W.frame h.cells.size := by
  have hpos : h.cells.size ≠ 0 := Nat.ne_of_gt (Nat.zero_lt_of_lt halike.outermost.1.lt_size)
  refine ⟨(halike.allocLeft _).addFrame hpos (isFrame_alloc h vars), fun hf => ?_⟩
  exact Nat.lt_irrefl _ (halike.frame_lt hf)

/-! ## Changes on both sides

A value is changed at a place and in its cell. All other places and cells are apart from these, since places and cells
belong to each other one to one. -/

/-- Identities and instances stay what they are when names are bound. -/
theorem twins_define (halike : h.Alike W h') (hf : h.IsFrame a) (hf' : h'.IsFrame c) {b d : Address}
    (ht : W.twin b d) : ∃ k k', (h.define a name v).cells[b]? = some k ∧
      (h'.define c name w).cells[d]? = some k' ∧ k.Alike W k' := by
  rw [getElem?_define, if_neg (halike.twin_ne_frame ht hf), getElem?_define, if_neg (halike.twin_ne_cell ht hf')]
  exact halike.twins ht

/-- A change of a name and of its cell. -/
theorem assign (halike : h.Alike W h') (hplace : W.place a name c) (hvw : v.Alike W w) :
    (h.define a name v).Alike W (h'.define c name w) := by
  obtain ⟨hne, hf⟩ := halike.frames (W.frame_of_place hplace)
  obtain ⟨hne', v₀, w₀, hv₀, hw₀, -⟩ := halike.places hplace
  have hf' : h'.IsFrame c := ⟨_, hw₀⟩
  have hle' := h'.le_define c name w
  refine ⟨fun hframe => ⟨(halike.frames hframe).1, isFrame_define (halike.frames hframe).2⟩, ?_, ?_, ?_, ?_⟩
  · intro b other d hp
    obtain ⟨hd, v', w', hv', hw', hvw'⟩ := halike.places hp
    refine ⟨hd, ?_⟩
    -- It is the cell that changes if and only if it is the name of the frame that changes.
    by_cases hsame : c = d
    · subst hsame
      obtain ⟨rfl, rfl⟩ := W.place_left hplace hp
      refine ⟨v, w, ?_, ?_, hvw⟩
      · rw [vars_define hf, if_pos ⟨rfl, rfl⟩]
      · rw [getElem?_define, if_pos rfl, hw']
        simp only [Option.map_some, Bindings.put, if_pos]
    · refine ⟨v', w', ?_, ?_, hvw'⟩
      · rw [vars_define hf, if_neg]
        · exact hv'
        rintro ⟨rfl, rfl⟩
        exact hsame (W.place_right hplace hp)
      · rw [getElem?_define, if_neg hsame]
        exact hw'
  · exact halike.twins_define hf hf'
  · exact ⟨isFrame_define halike.outermost.1, hle'.frames halike.outermost.2⟩
  · intro other
    rw [vars_define hf, if_neg fun hboth => hne hboth.1, vars_define hf', if_neg fun hboth => hne' hboth.1]
    exact halike.globals other

/-- A global of one name is set to values that are alike. The other globals and all cells hold what they held. -/
theorem assignGlobal (halike : h.Alike W h') (hvw : v.Alike W w) :
    (h.define 0 name v).Alike W (h'.define 0 name w) := by
  obtain ⟨hf, hf'⟩ := halike.outermost
  refine ⟨fun hframe => ⟨(halike.frames hframe).1, isFrame_define (halike.frames hframe).2⟩, ?_, ?_,
    ⟨isFrame_define hf, isFrame_define hf'⟩, ?_⟩
  · intro a other c hp
    obtain ⟨hc, v', w', hv', hw', hvw'⟩ := halike.places hp
    -- frames that have cells are never the globals
    have ha := (halike.frames (W.frame_of_place hp)).1
    refine ⟨hc, v', w', ?_, ?_, hvw'⟩
    · rw [vars_define hf, if_neg fun hboth => ha hboth.1.symm]
      exact hv'
    · rw [getElem?_define, if_neg hc.symm]
      exact hw'
  · exact halike.twins_define hf hf'
  · intro other
    rw [vars_define hf, vars_define hf']
    by_cases hname : name = other
    · rw [if_pos ⟨rfl, hname⟩, if_pos ⟨rfl, hname⟩]
      exact .some hvw
    · rw [if_neg fun hboth => hname hboth.2, if_neg fun hboth => hname hboth.2]
      exact halike.globals other

/-- A field is set in instances that are twins. Other instances and all frames and cells stay as they are. -/
theorem setField (halike : h.Alike W h') (htwin : W.twin b c) (hvw : v.Alike W w) (name : String) :
    (h.setField b name v).Alike W (h'.setField c name w) := by
  obtain ⟨k₀, k₀', hk₀, hk₀', hkind₀⟩ := halike.twins htwin
  have hle := h.le_setField b name v
  have hle' := h'.le_setField c name w
  refine ⟨fun hframe => ⟨(halike.frames hframe).1, hle.frames (halike.frames hframe).2⟩, ?_, ?_,
    ⟨hle.frames halike.outermost.1, hle'.frames halike.outermost.2⟩, fun other => ?_⟩
  · intro a other d hp
    obtain ⟨hd, v', w', hv', hw', hvw'⟩ := halike.places hp
    refine ⟨hd, v', w', by rw [vars_setField]; exact hv', ?_, hvw'⟩
    rw [getElem?_setField, if_neg]
    · exact hw'
    -- A cell of a name is no instance.
    rintro rfl
    rw [hk₀'] at hw'
    cases hw'
    cases hkind₀
  · intro b' d ht
    obtain ⟨k, k', hk, hk', hkind⟩ := halike.twins ht
    rw [getElem?_setField, getElem?_setField, hk, hk']
    -- Instances correspond one to one, so the same one changes on both sides.
    by_cases hsame : b = b'
    · subst hsame
      obtain rfl := W.twin_right htwin ht
      rw [if_pos rfl, if_pos rfl]
      cases hkind with
      | identity => exact ⟨_, _, rfl, rfl, .identity⟩
      | fields hfields =>
        refine ⟨_, _, rfl, rfl, .fields fun other => ?_⟩
        rw [Bindings.get?_put, Bindings.get?_put]
        by_cases hname : name = other
        · rw [if_pos hname, if_pos hname]
          exact .some hvw
        · rw [if_neg hname, if_neg hname]
          exact hfields other
    · have hsame' : c ≠ d := by
        rintro rfl
        exact hsame (W.twin_left htwin ht)
      rw [if_neg hsame, if_neg hsame']
      exact ⟨k, k', rfl, rfl, hkind⟩
  · rw [vars_setField, vars_setField]
    exact halike.globals other

/-- Corresponding instances have fields that are alike. -/
theorem fields (halike : h.Alike W h') (htwin : W.twin b c) (name : String) :
    Option.Rel (Value.Alike W) ((h.fields b).get? name) ((h'.fields c).get? name) := by
  obtain ⟨k, k', hk, hk', hkind⟩ := halike.twins htwin
  unfold Heap.fields
  rw [hk, hk']
  cases hkind with
  | fields hfields => exact hfields name
  | identity => exact .none

end Heap.Alike

/-! ## Looking names up

The cells of an environment are searched from the latest on. The first of a name belongs to the innermost frame that has
declared it. -/

namespace Environment

variable {W : World} {h h' : Heap} {S : Scopes} {env cells : Environment} {name : String}

/-- A cell binds the name it is for. -/
theorem get?_vars_of_place {a c : Address} (halike : h.Alike W h') (hp : W.place a name c) (other : String) :
    ∃ v w, (h.vars a).get? name = some v ∧ v.Alike W w ∧
      (h'.vars c).get? other = if name = other then some w else none := by
  obtain ⟨-, v, w, hv, hw, hvw⟩ := halike.places hp
  refine ⟨v, w, hv, hvw, ?_⟩
  unfold Heap.vars
  rw [hw]
  exact Bindings.get?_singleton _ _ _

/-- Among the cells of a scope, a name of the scope is found and other names are not. -/
theorem holder_append (halike : h.Alike W h') {a : Address} {scope : List String} {inner : Environment}
    (hinner : List.Forall₂ (W.place a) scope inner) (outer : Environment) (name : String) :
    (name ∈ scope → ∃ c, W.place a name c ∧ holder? (inner ++ outer) h' name = some c) ∧
      (name ∉ scope → holder? (inner ++ outer) h' name = outer.holder? h' name) := by
  -- along the names of the scope, each of which has a cell of its own
  induction hinner with
  | nil => exact ⟨fun hmem => (List.not_mem_nil hmem).elim, fun _ => rfl⟩
  | @cons first c scope inner hp _ ih =>
    obtain ⟨v, w, -, -, hget⟩ := get?_vars_of_place halike hp name
    have hstep : holder? (c :: (inner ++ outer)) h' name
        = if first = name then some c else holder? (inner ++ outer) h' name := by
      unfold holder?
      rw [List.find?_cons, hget]
      by_cases hname : first = name
      · rw [if_pos hname, if_pos hname]
        rfl
      · rw [if_neg hname, if_neg hname]
        rfl
    rw [List.cons_append, hstep]
    by_cases hname : first = name
    · rw [if_pos hname]
      have hmem : name ∈ first :: scope := hname ▸ List.mem_cons_self
      exact ⟨fun _ => ⟨c, hname ▸ hp, rfl⟩, fun hnot => absurd hmem hnot⟩
    · rw [if_neg hname]
      refine ⟨fun hmem => ih.1 ?_, fun hmem => ih.2 fun h => hmem (List.mem_cons_of_mem _ h)⟩
      rcases List.mem_cons.mp hmem with rfl | hmem
      · exact absurd rfl hname
      · exact hmem

/-- A name that gets a cell in the innermost scope. -/
theorem Mirrors.cons {a c : Address} {scope : List String}
    (h : Environment.Mirrors W (scope :: S) (a :: env) cells) (hp : W.place a name c) :
    Environment.Mirrors W ((name :: scope) :: S) (a :: env) (c :: cells) := by
  obtain ⟨hframe, inner, outer, rfl, hinner, houter⟩ := h
  exact ⟨hframe, c :: inner, outer, rfl, .cons hp hinner, houter⟩

theorem Mirrors.enter {a : Address} (h : Environment.Mirrors W S env cells) (hframe : W.frame a) :
    Environment.Mirrors W ([] :: S) (a :: env) cells :=
  ⟨hframe, [], cells, rfl, .nil, h⟩

/-- A local name: its frame lies at its distance, and its cell is the first one of the name. -/
theorem Mirrors.holder_of_hops (hmirrors : Environment.Mirrors W S env cells) (halike : h.Alike W h')
    {d : Nat} (hd : S.hops name = some d) :
    ∃ a c, env[d]? = some a ∧ W.place a name c ∧ cells.holder? h' name = some c := by
  -- scope by scope: the cells of the innermost come first, and if it has not declared the name they are all passed
  -- over
  induction S generalizing env cells d with
  | nil => cases hd
  | cons scope S ih =>
    cases env with
    | nil => exact hmirrors.elim
    | cons a env =>
      obtain ⟨-, inner, outer, rfl, hinner, houter⟩ := hmirrors
      obtain ⟨hfound, hpassed⟩ := holder_append halike hinner outer name
      rw [Scopes.hops_cons] at hd
      split at hd
      case isTrue hmem =>
        cases hd
        obtain ⟨c, hp, hholder⟩ := hfound hmem
        exact ⟨a, c, rfl, hp, hholder⟩
      case isFalse hmem =>
        obtain ⟨e, he, rfl⟩ := Option.map_eq_some_iff.mp hd
        rw [hpassed hmem]
        exact ih houter he

/-- The values of a local name on both sides. -/
theorem Mirrors.values_of_hops (hmirrors : Environment.Mirrors W S env cells) (halike : h.Alike W h')
    {d : Nat} (hd : S.hops name = some d) :
    ∃ a v w, env[d]? = some a ∧ (h.vars a).get? name = some v ∧ cells.get? h' name = some w ∧
      v.Alike W w := by
  obtain ⟨a, c, ha, hp, hholder⟩ := hmirrors.holder_of_hops halike hd
  obtain ⟨v, w, hv, hvw, hw⟩ := get?_vars_of_place halike hp name
  rw [if_pos rfl] at hw
  refine ⟨a, v, w, ha, hv, ?_, hvw⟩
  rw [get?_eq_holder, hholder]
  exact hw

/-- Other names are looked up among the globals. -/
theorem Mirrors.holder_of_not_hops (hmirrors : Environment.Mirrors W S env cells) (halike : h.Alike W h')
    (hd : S.hops name = none) : cells.holder? h' name = Environment.globals.holder? h' name := by
  induction S generalizing env cells with
  | nil => rw [hmirrors.2]
  | cons scope S ih =>
    cases env with
    | nil => exact hmirrors.elim
    | cons a env =>
      obtain ⟨-, inner, outer, rfl, hinner, houter⟩ := hmirrors
      rw [Scopes.hops_cons] at hd
      split at hd
      case isTrue => cases hd
      case isFalse hmem =>
        rw [(holder_append halike hinner outer name).2 hmem]
        exact ih houter (Option.map_eq_none_iff.mp hd)

end Environment

end LoxLang
