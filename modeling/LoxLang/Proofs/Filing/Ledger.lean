import LoxLang.Proofs.Filing.Notes

/-!
# The ledger

A ledger holds the distance of every reference so far, each at a place of its own. Code is filed by giving each of
its references the next place: then its notes say where to look, and the ledger says what is meant.

* **`Stmt.fileAll_files`** — filed code means what was filed, whatever is entered behind it.

`Filing.Files` is a triple for walks that file. Its postcondition holds for every ledger that continues the one that
the walk leaves, so that it survives all further walks.
-/

namespace LoxLang

/-- The distances of references, each at its place; a reference to a global has a place without a distance. -/
abbrev Ledger := List Hops

namespace Ledger

/-- A note is a place, and means the distance that is entered there. -/
def read (L : Ledger) : View := fun note =>
  note.bind fun place => L[place]?.join

/-- Forgets all places behind the first `n`. -/
def within (n : Nat) : View := fun note =>
  note.filter (· < n)

/-- Entries behind the places that are kept are not read. -/
theorem read_append_within (L new : Ledger) (note : Hops) :
    (L ++ new).read (within L.length note) = L.read note := by
  cases note with
  | none => rfl
  | some place =>
    by_cases hplace : place < L.length
    · have hkept : within L.length (some place) = some place := Option.filter_some_pos (decide_eq_true hplace)
      rw [hkept]
      show (L ++ new)[place]?.join = L[place]?.join
      rw [List.getElem?_append_left hplace]
    · have hgone : within L.length (some place) = none := Option.filter_some_neg (by simpa using hplace)
      have habsent : L[place]? = none := List.getElem?_eq_none (Nat.le_of_not_lt hplace)
      rw [hgone]
      show none = L[place]?.join
      rw [habsent]
      rfl

/-- A place outside of the ledger is no place. -/
theorem read_within (L : Ledger) (note : Hops) : L.read (within L.length note) = L.read note := by
  have h := L.read_append_within [] note
  rwa [List.append_nil] at h

/-- What is within a short ledger is within a longer one. -/
theorem within_within {n n' : Nat} (h : n ≤ n') (note : Hops) : within n' (within n note) = within n note := by
  cases note with
  | none => rfl
  | some place =>
    by_cases hplace : place < n
    · have hkept : within n (some place) = some place := Option.filter_some_pos (decide_eq_true hplace)
      rw [hkept]
      exact Option.filter_some_pos (decide_eq_true (Nat.lt_of_lt_of_le hplace h))
    · have hgone : within n (some place) = none := Option.filter_some_neg (by simpa using hplace)
      rw [hgone]
      rfl

end Ledger

/-! ## Filing

The walk goes through the tree in the order in which the resolver goes, and changes notes only. -/

/-- Walks that enter references in a ledger. -/
abbrev Filing := StateM Ledger

/-- Enters the distance of a reference and notes the place. -/
def Reference.file (r : Reference Hops) : Filing (Reference Hops) := fun L =>
  (⟨r.name, some L.length⟩, L ++ [r.note])

/-- Files an expression, in the order in which it is resolved. -/
def Expr.file : Expr Hops → Filing (Expr Hops)
  | .assign target value => do
    let value ← value.file
    return .assign (← target.file) value
  | .binary left operator right => do
    let left ← left.file
    return .binary left operator (← right.file)
  | .call callee paren arguments => do
    let callee ← callee.file
    return .call callee paren (← all arguments)
  | .get object name => return .get (← object.file) name
  | .grouping inner => return .grouping (← inner.file)
  | .literal value => return .literal value
  | .logical left operator right => do
    let left ← left.file
    return .logical left operator (← right.file)
  | .set object name value => do
    let value ← value.file
    return .set (← object.file) name value
  | .super keyword method => return .super (← keyword.file) method
  | .this keyword => return .this (← keyword.file)
  | .unary operator right => return .unary operator (← right.file)
  | .variable reference => return .variable (← reference.file)
  | .unknown => return .unknown
where
  all : List (Expr Hops) → Filing (List (Expr Hops))
    | [] => return []
    | e :: es => do
      let e ← e.file
      return e :: (← all es)

/-- Files an expression that may be missing. -/
def Expr.fileOption : Option (Expr Hops) → Filing (Option (Expr Hops))
  | some e => return some (← e.file)
  | none => return none

/-- Files a superclass if there is one. -/
def Reference.fileOption : Option (Reference Hops) → Filing (Option (Reference Hops))
  | some r => return some (← r.file)
  | none => return none

mutual

/-- Files a statement. -/
def Stmt.file : Stmt Hops → Filing (Stmt Hops)
  | .block body => return .block (← Stmt.fileAll body)
  | .expression value => return .expression (← value.file)
  | .function declaration => return .function (← declaration.file)
  | .class name superclass methods => do
    let superclass ← Reference.fileOption superclass
    return .class name superclass (← FunDecl.fileAll methods)
  | .if condition thenBranch elseBranch => do
    let condition ← condition.file
    let thenFiled ← thenBranch.file
    match elseBranch with
    | some s => return .if condition thenFiled (some (← s.file))
    | none => return .if condition thenFiled none
  | .print value => return .print (← value.file)
  | .return keyword value => return .return keyword (← Expr.fileOption value)
  | .var name initializer => return .var name (← Expr.fileOption initializer)
  | .while condition body => do
    let condition ← condition.file
    return .while condition (← body.file)
  | .unknown => return .unknown

/-- Files statements. -/
def Stmt.fileAll : List (Stmt Hops) → Filing (List (Stmt Hops))
  | [] => return []
  | s :: ss => do
    let filed ← s.file
    return filed :: (← Stmt.fileAll ss)

/-- Files a function. -/
def FunDecl.file : FunDecl Hops → Filing (FunDecl Hops)
  | ⟨name, params, body⟩ => return ⟨name, params, ← Stmt.fileAll body⟩

/-- Files functions. -/
def FunDecl.fileAll : List (FunDecl Hops) → Filing (List (FunDecl Hops))
  | [] => return []
  | d :: ds => do
    let filed ← d.file
    return filed :: (← FunDecl.fileAll ds)

end

/-! ## What filed code means

Filed code means the code that was filed, if its notes are looked up in the ledger; and ledgers only grow. -/

/-- With the ledger and with all that continue it, `filed` means `a`, and it has no places outside of the ledger. The
change of the notes in such code is `change`. -/
def Ledger.Means {α : Type} (change : View → α → α) (a filed : α) (L : Ledger) : Prop :=
  ∀ L' : Ledger, L <+: L' → change L'.read filed = a ∧ change (within L'.length) filed = filed

namespace Ledger

variable {α β γ : Type} {change : View → α → α} {change' : View → β → β} {change'' : View → γ → γ} {a filed : α}
  {b filed' : β} {L : Ledger}

/-- Entries behind a ledger change nothing of what it says. -/
theorem Means.mono (h : Means change a filed L) {L' : Ledger} (hle : L <+: L') : Means change a filed L' :=
  fun L'' hle' => h L'' (hle.trans hle')

theorem Means.map {g : α → β} (hg : ∀ view a, change' view (g a) = g (change view a)) (h : Means change a filed L) :
    Means change' (g a) (g filed) L := by
  intro L' hle
  obtain ⟨hread, hwithin⟩ := h L' hle
  rw [hg, hg, hread, hwithin]
  exact ⟨rfl, rfl⟩

theorem Means.map₂ {g : α → β → γ} (hg : ∀ view a b, change'' view (g a b) = g (change view a) (change' view b))
    (h : Means change a filed L) (h' : Means change' b filed' L) : Means change'' (g a b) (g filed filed') L := by
  intro L' hle
  obtain ⟨hread, hwithin⟩ := h L' hle
  obtain ⟨hread', hwithin'⟩ := h' L' hle
  rw [hg, hg, hread, hwithin, hread', hwithin']
  exact ⟨rfl, rfl⟩

end Ledger

/-- A walk that leaves what is in the ledger and gives filed code with the property, on which further entries have no
bearing. -/
def Filing.Files {α : Type} (act : Filing α) (Q : α → Ledger → Prop) : Prop :=
  ∀ L, L <+: (act.run L).2 ∧ Q (act.run L).1 (act.run L).2

namespace Filing

variable {α β : Type} {act : Filing α} {f : α → Filing β}

theorem Files.pure {a : α} {Q : α → Ledger → Prop} (h : ∀ L, Q a L) : Files (pure a) Q :=
  fun L => ⟨List.prefix_rfl, h L⟩

/-- What the first part means is known behind the second part too. -/
theorem Files.bind {change : View → α → α} {a : α} {Q : β → Ledger → Prop} (h : act.Files (Ledger.Means change a))
    (hf : ∀ filed, (f filed).Files fun b L => Ledger.Means change a filed L → Q b L) : (act >>= f).Files Q := by
  intro L
  obtain ⟨hle, hmeans⟩ := h L
  obtain ⟨hle', hQ⟩ := hf (act.run L).1 (act.run L).2
  exact ⟨hle.trans hle', hQ (hmeans.mono hle')⟩

/-- A node is made of filed parts. -/
theorem Files.map {change : View → α → α} {change' : View → β → β} {a : α} {g : α → β}
    (h : act.Files (Ledger.Means change a)) (hg : ∀ view a, change' view (g a) = g (change view a)) :
    Files (do return g (← act)) (Ledger.Means change' (g a)) :=
  h.bind fun _ => .pure fun _ hmeans => hmeans.map hg

/-- A node is made of two filed parts, one filed behind the other. -/
theorem Files.map₂ {γ : Type} {act' : Filing β} {change : View → α → α} {change' : View → β → β}
    {change'' : View → γ → γ} {a : α} {b : β} {g : α → β → γ} (h : act.Files (Ledger.Means change a))
    (h' : act'.Files (Ledger.Means change' b))
    (hg : ∀ view a b, change'' view (g a b) = g (change view a) (change' view b)) :
    Files (do
      let x ← act
      return g x (← act')) (Ledger.Means change'' (g a b)) :=
  h.bind fun _ => h'.bind fun _ => .pure fun _ hmeans' hmeans => hmeans.map₂ hg hmeans'

end Filing

open Filing

/-- The place that a reference gets holds its distance. -/
theorem Reference.file_files (r : Reference Hops) : r.file.Files (Ledger.Means Reference.through r) := by
  intro L
  -- the place is the first one behind the ledger, whatever comes behind the entry
  refine ⟨List.prefix_append L [r.note], fun L' hle => ?_⟩
  obtain ⟨new, rfl⟩ := hle
  have hentry : (L ++ [r.note] ++ new)[L.length]? = some r.note := by
    rw [List.append_assoc, List.getElem?_append_right (Nat.le_refl _), Nat.sub_self]
    rfl
  have hplace : L.length < (L ++ [r.note] ++ new).length := by
    simp only [List.length_append, List.length_singleton]
    omega
  constructor
  · show (⟨r.name, (L ++ [r.note] ++ new)[L.length]?.join⟩ : Reference Hops) = r
    rw [hentry]
    rfl
  · exact congrArg (Reference.mk r.name) (Option.filter_some_pos (decide_eq_true hplace))

mutual

theorem Expr.file_files (e : Expr Hops) : e.file.Files (Ledger.Means Expr.mapNotes e) := by
  cases e with
  | assign target value => exact (Expr.file_files value).map₂ target.file_files fun _ _ _ => rfl
  | binary left operator right | logical left operator right =>
    exact (Expr.file_files left).map₂ (Expr.file_files right) fun _ _ _ => rfl
  | call callee paren arguments =>
    exact (Expr.file_files callee).map₂ (Expr.file_all_files arguments) fun _ _ _ => rfl
  | set object name value => exact (Expr.file_files value).map₂ (Expr.file_files object) fun _ _ _ => rfl
  | get e name | grouping e | unary operator e => exact (Expr.file_files e).map fun _ _ => rfl
  | super r method | this r | «variable» r => exact r.file_files.map fun _ _ => rfl
  | literal | unknown => exact .pure fun _ _ _ => ⟨rfl, rfl⟩

theorem Expr.file_all_files (es : List (Expr Hops)) :
    (Expr.file.all es).Files (Ledger.Means Expr.mapNotes.mapAll es) := by
  cases es with
  | nil => exact .pure fun _ _ _ => ⟨rfl, rfl⟩
  | cons e es => exact (Expr.file_files e).map₂ (Expr.file_all_files es) fun _ _ _ => rfl

end

theorem Expr.fileOption_files (e? : Option (Expr Hops)) :
    (Expr.fileOption e?).Files (Ledger.Means (fun view e? => e?.map (·.mapNotes view)) e?) := by
  cases e? with
  | none => exact .pure fun _ _ _ => ⟨rfl, rfl⟩
  | some e => exact e.file_files.map fun _ _ => rfl

theorem Reference.fileOption_files (r? : Option (Reference Hops)) :
    (Reference.fileOption r?).Files (Ledger.Means (fun view r? => r?.map (·.through view)) r?) := by
  cases r? with
  | none => exact .pure fun _ _ _ => ⟨rfl, rfl⟩
  | some r => exact r.file_files.map fun _ _ => rfl

mutual

/-- Filing a statement adds to the ledger, and by the ledger the filed statement means the one it was made of. -/
theorem Stmt.file_files (s : Stmt Hops) : s.file.Files (Ledger.Means Stmt.mapNotes s) := by
  cases s with
  | block body => exact (Stmt.fileAll_files body).map fun _ _ => rfl
  | expression e | print e => exact e.file_files.map fun _ _ => rfl
  | function declaration => exact (FunDecl.file_files declaration).map fun _ _ => rfl
  | «class» name superclass methods =>
    exact (Reference.fileOption_files superclass).map₂ (FunDecl.fileAll_files methods) fun _ _ _ => rfl
  | «if» condition thenBranch elseBranch =>
    have hbegin := condition.file_files
    have hthen := Stmt.file_files thenBranch
    cases elseBranch with
    | none => exact hbegin.map₂ hthen fun _ _ _ => rfl
    | some s =>
      refine hbegin.bind fun condition' => hthen.bind fun then' => (Stmt.file_files s).bind fun s' => ?_
      refine .pure fun L hs hthen hcondition L' hle => ?_
      -- what was filed first is still read back from the longer ledger
      obtain ⟨hread, hwithin⟩ := hcondition L' hle
      obtain ⟨hread₁, hwithin₁⟩ := hthen L' hle
      obtain ⟨hread₂, hwithin₂⟩ := hs L' hle
      rw [Stmt.mapNotes, Stmt.mapNotes, hread, hwithin, hread₁, hwithin₁, hread₂, hwithin₂]
      exact ⟨rfl, rfl⟩
  | «return» word e? | var word e? => exact (Expr.fileOption_files e?).map fun _ _ => rfl
  | «while» condition body => exact condition.file_files.map₂ (Stmt.file_files body) fun _ _ _ => rfl
  | unknown => exact .pure fun _ _ _ => ⟨rfl, rfl⟩

theorem Stmt.fileAll_files (ss : List (Stmt Hops)) :
    (Stmt.fileAll ss).Files (Ledger.Means Stmt.mapAllNotes ss) := by
  cases ss with
  | nil => exact .pure fun _ _ _ => ⟨rfl, rfl⟩
  | cons s ss => exact (Stmt.file_files s).map₂ (Stmt.fileAll_files ss) fun _ _ _ => rfl

/-- A function is filed with its body. -/
theorem FunDecl.file_files (d : FunDecl Hops) : d.file.Files (Ledger.Means FunDecl.mapNotes d) := by
  obtain ⟨name, params, body⟩ := d
  exact (Stmt.fileAll_files body).map fun _ _ => rfl

theorem FunDecl.fileAll_files (ds : List (FunDecl Hops)) :
    (FunDecl.fileAll ds).Files (Ledger.Means FunDecl.mapAllNotes ds) := by
  cases ds with
  | nil => exact .pure fun _ _ _ => ⟨rfl, rfl⟩
  | cons d ds => exact (FunDecl.file_files d).map₂ (FunDecl.fileAll_files ds) fun _ _ _ => rfl

end

end LoxLang
