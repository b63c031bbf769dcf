import LoxLang.Proofs.Artifact.Decoding
import LoxLang.Proofs.Scope.Resolved

/-!
# Artifacts of a text

* **`Json.obstacle_of_shown`** — nothing keeps a document from being written that can be read back.
* **`artifacts_read_back`** — tokens and trees of a text are read back from their artifacts.
-/

namespace LoxLang

/-! ## Writing

Only numbers that are not finite keep a document from being written. A document that can be read back has none of them.
-/

/-- The first obstacle is in the first part, or else in the second. -/
theorem Json.Draft.obstacle_append (a b : Draft) : (a ++ b).obstacle? = a.obstacle?.or b.obstacle? := by
  obtain ⟨text, obstacle⟩ := a
  cases obstacle <;> rfl

/-- The obstacles of a list are those of its items. -/
theorem Json.obstacle_draftItems (level : Nat) (items : List Json) :
    (draftItems level items).obstacle? = items.findSome? fun item => (item.draft level).obstacle? := by
  induction items with
  | nil => rfl
  | cons item items ih =>
    rw [draftItems, Draft.obstacle_append, Draft.obstacle_append, ih, List.findSome?_cons]
    cases (item.draft level).obstacle? <;> rfl

/-- Writing an array stops where writing an item does. -/
theorem Json.obstacle_array (level : Nat) (items : List Json) :
    ((Json.array items).draft level).obstacle? = items.findSome? fun item => (item.draft (level + 1)).obstacle? := by
  cases items with
  | nil => rfl
  | cons item items =>
    rw [draft, Draft.obstacle_append, Draft.obstacle_append, Draft.obstacle_append, obstacle_draftItems,
      List.findSome?_cons]
    cases (item.draft (level + 1)).obstacle? <;> simp

/-- The obstacles of an object are those of its members. -/
theorem Json.obstacle_draftMembers (level : Nat) (members : List (String × Json)) :
    (draftMembers level members).obstacle? = members.findSome? fun m => (m.2.draft level).obstacle? := by
  induction members with
  | nil => rfl
  | cons m members ih =>
    obtain ⟨key, value⟩ := m
    rw [draftMembers, draftMember, Draft.obstacle_append, Draft.obstacle_append, Draft.obstacle_append, ih,
      List.findSome?_cons]
    cases (value.draft level).obstacle? <;> rfl

/-- Writing an object stops where writing a member does. -/
theorem Json.obstacle_object (level : Nat) (members : List (String × Json)) :
    ((Json.object members).draft level).obstacle?
      = members.findSome? fun m => (m.2.draft (level + 1)).obstacle? := by
  cases members with
  | nil => rfl
  | cons m members =>
    obtain ⟨key, value⟩ := m
    rw [draft, draftMember, Draft.obstacle_append, Draft.obstacle_append, Draft.obstacle_append,
      Draft.obstacle_append, obstacle_draftMembers, List.findSome?_cons]
    cases (value.draft (level + 1)).obstacle? <;> simp

mutual

/-- Nothing keeps a document from being written that can be read back. -/
theorem Json.obstacle_of_shown {j : Json} {part : Shown} (h : j.shown? = some part) (level : Nat) :
    (j.draft level).obstacle? = none := by
  cases j with
  | array items =>
    obtain ⟨parts, hall, -⟩ := Option.map_eq_some_iff.mp h
    rw [obstacle_array, List.findSome?_eq_none_iff]
    exact Json.obstacle_of_allShown hall (level + 1)
  | object members =>
    obtain ⟨parts, hall, -⟩ := Option.bind_eq_some_iff.mp h
    rw [obstacle_object, List.findSome?_eq_none_iff]
    exact Json.obstacle_of_membersShown hall (level + 1)
  | unwritable o => cases h
  | _ => rfl

theorem Json.obstacle_of_allShown {items : List Json} {parts : List Shown} (h : Json.allShown? items = some parts)
    (level : Nat) : ∀ item ∈ items, (item.draft level).obstacle? = none := by
  cases items with
  | nil => exact List.forall_mem_nil _
  | cons item items =>
    simp only [Json.allShown?, Option.bind_eq_bind, Option.bind_eq_some_iff] at h
    obtain ⟨part, hshown, rest, hall, -⟩ := h
    exact List.forall_mem_cons.mpr ⟨Json.obstacle_of_shown hshown level, Json.obstacle_of_allShown hall level⟩

theorem Json.obstacle_of_membersShown {members : List (String × Json)} {parts : Members}
    (h : Json.membersShown? members = some parts) (level : Nat) :
    ∀ m ∈ members, (m.2.draft level).obstacle? = none := by
  cases members with
  | nil => exact List.forall_mem_nil _
  | cons m members =>
    obtain ⟨key, value⟩ := m
    simp only [Json.membersShown?, Option.bind_eq_bind, Option.bind_eq_some_iff] at h
    obtain ⟨part, hshown, rest, hall, -⟩ := h
    exact List.forall_mem_cons.mpr
      ⟨Json.obstacle_of_shown hshown level, Json.obstacle_of_membersShown hall level⟩

end

/-! ## Whole artifacts

An artifact is an array of tokens or of nodes. That all of it is written, and read back, is put together from the parts.
-/

/-- The tokens are read back in order. -/
theorem tokens?_artifact {ts : List Token} (h : ∀ t ∈ ts, t.IsFinite) : (tokensArtifact ts).tokens? = some ts := by
  simp [tokensArtifact, Json.tokens?, Json.shown?, Token.allShown_toJson h]

theorem program?_array {program : List SourceStmt} (h : Stmt.AllDrawn Token.IsFinite program) :
    Json.program? (.array (Stmt.allToJson program)) = some program := by
  simp [Json.program?, Json.shown?, Stmt.allShown_toJson h]

/-- A tree that nothing keeps from being shown is shown statement by statement. -/
theorem treeArtifact_eq {program : List SourceStmt} (h : treeObstacle? program = none) :
    treeArtifact program = .array (Stmt.allToJson program) := by
  have hshallow : ∀ s ∈ program, s.isTooDeep = false := by
    simpa [treeObstacle?] using h
  unfold treeArtifact
  congr 1
  clear h
  induction program with
  | nil => rfl
  | cons s ss ih =>
    obtain ⟨hs, hss⟩ := List.forall_mem_cons.mp hshallow
    rw [List.map_cons, Stmt.item, hs, Stmt.allToJson, ih hss]
    rfl

/-- Nothing but the levels of its statements keeps a tree from being written. -/
theorem obstacle_treeArtifact {program : List SourceStmt} (h : Stmt.AllDrawn Token.IsFinite program) :
    (treeArtifact program).write.obstacle? = treeObstacle? program := by
  have hitem : ∀ s ∈ program, (s.item.draft 1).obstacle? = if s.isTooDeep then some .tooDeep else none := by
    intro s hs
    have hshown := Stmt.shown_toJson (Stmt.allDrawn_iff.mp h s hs)
    unfold Stmt.item
    split
    · rfl
    · exact Json.obstacle_of_shown hshown 1
  unfold Json.write treeArtifact treeObstacle?
  rw [Json.obstacle_array]
  -- the first item that is not written is the first one that is too deep
  clear h
  induction program with
  | nil => rfl
  | cons s ss ih =>
    obtain ⟨hs, hss⟩ := List.forall_mem_cons.mp hitem
    rw [List.map_cons, List.findSome?_cons, hs, ih hss, List.any_cons]
    cases s.isTooDeep <;> rfl

/-- **Artifacts lose nothing.** When the numbers of a text are finite, its tokens are read back from their artifact,
and its tree is read back from its document. The tree's artifact is that document, unless a statement has too many
levels; then it is not written. -/
theorem artifacts_read_back (source : String) (hfinite : ∀ t ∈ (scan source).tokens, t.IsFinite) :
    (tokensArtifact (scan source).tokens).tokens? = some (scan source).tokens ∧
      ∃ parsed, parse (scan source).tokens = some parsed ∧
        (Json.array (Stmt.allToJson parsed.program)).program? = some parsed.program ∧
        (treeArtifact parsed.program).write.obstacle? = treeObstacle? parsed.program ∧
        (treeObstacle? parsed.program = none → (treeArtifact parsed.program).program? = some parsed.program) := by
  obtain ⟨program, ds, hparse, -⟩ := parse_scan source
  have hdrawn : Stmt.AllDrawn Token.IsFinite program := parse_drawn hparse hfinite
  refine ⟨tokens?_artifact hfinite, ⟨program, ds⟩, hparse, program?_array hdrawn,
    obstacle_treeArtifact hdrawn, ?_⟩
  intro hobstacle
  rw [treeArtifact_eq hobstacle]
  exact program?_array hdrawn

/-- A string that looks like a number, a number, and a declaration that is broken. -/
theorem artifacts_read_back_broken :
    (tokensArtifact (scan "var a = \"1\"; print a + 1; var;").tokens).tokens?
        = some (scan "var a = \"1\"; print a + 1; var;").tokens ∧
      ∃ parsed, parse (scan "var a = \"1\"; print a + 1; var;").tokens = some parsed ∧
        (Json.array (Stmt.allToJson parsed.program)).program? = some parsed.program ∧
        (treeArtifact parsed.program).write.obstacle? = treeObstacle? parsed.program ∧
        (treeObstacle? parsed.program = none → (treeArtifact parsed.program).program? = some parsed.program) :=
  artifacts_read_back "var a = \"1\"; print a + 1; var;" (by decide +kernel)

end LoxLang
