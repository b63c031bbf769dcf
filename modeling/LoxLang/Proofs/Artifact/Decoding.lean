import Mathlib
import LoxLang.Artifact
import LoxLang.Proofs.Parse.Drawn
import LoxLang.Proofs.Token.Scanned

/-!
# Reading artifacts back

An artifact is read from its leaves to its root. What stands at an object is told by its member `kind`: the name of a
kind of tokens or the tag of a node; its other members are found by their names.

* **`Json.shown?`** — what a document shows.
* **`Expr.shown_toJson`**, **`Stmt.shown_toJson`** — nothing is lost of a tree that is made out of tokens with finite
  literals.
-/

namespace LoxLang

/-! ## Readers

A reader takes what a document shows and looks for the members that it needs. It may fail, and nothing is assumed of the
document. -/

/-- What a part of an artifact shows. -/
inductive Shown where
  | literal (value : Literal)
  | line (n : Int)
  | token (t : Token)
  | expr (e : SourceExpr)
  | stmt (s : SourceStmt)
  | list (parts : List Shown)

namespace Shown

@[simp] def literal? : Shown → Option Literal
  | literal value => some value
  | _ => none

@[simp] def text? : Shown → Option String
  | literal (.string s) => some s
  | _ => none

@[simp] def line? : Shown → Option Int
  | line n => some n
  | _ => none

@[simp] def token? : Shown → Option Token
  | token t => some t
  | _ => none

@[simp] def expr? : Shown → Option SourceExpr
  | expr e => some e
  | _ => none

@[simp] def stmt? : Shown → Option SourceStmt
  | stmt s => some s
  | _ => none

/-- The declaration of a function. -/
@[simp] def funDecl? : Shown → Option SourceFun
  | stmt (.function d) => some d
  | _ => none

/-- The use of a variable. -/
@[simp] def reference? : Shown → Option (Reference Unit)
  | expr (.variable r) => some r
  | _ => none

/-- What may be missing. -/
def optional? {α : Type} (read : Shown → Option α) : Shown → Option (Option α)
  | literal .nil => some none
  | part => some <$> read part

/-- Items that are all read alike. -/
def listOf? {α : Type} (read : Shown → Option α) : Shown → Option (List α)
  | list parts => parts.mapM read
  | _ => none

end Shown

/-- The members of an object by their names. -/
abbrev Members := List (String × Shown)

namespace Members

variable (members : Members)

/-- The member of a name. -/
def read? {α : Type} (read : Shown → Option α) (name : String) : Option α := do
  read (← members.lookup name)

/-- A token whose kind is known. -/
def token? (kind : Kind) : Option Token :=
  return ⟨kind, ← members.read? Shown.text? "lexeme", ← members.read? Shown.literal? "literal",
    ← members.read? Shown.line? "line"⟩

/-- The expression with a tag. -/
def expr? (tag : String) : Option SourceExpr :=
  let expr := members.read? Shown.expr?
  let token := members.read? Shown.token?
  match tag with
  | "assign" => return .assign (.bare (← token "name")) (← expr "value")
  | "binary" => return .binary (← expr "left") (← token "operator") (← expr "right")
  | "call" =>
    return .call (← expr "callee") (← token "paren") (← members.read? (Shown.listOf? Shown.expr?) "arguments")
  | "get" => return .get (← expr "object") (← token "name")
  | "grouping" => return .grouping (← expr "expression")
  | "literal" => return .literal (← members.read? Shown.literal? "value")
  | "logical" => return .logical (← expr "left") (← token "operator") (← expr "right")
  | "set" => return .set (← expr "object") (← token "name") (← expr "value")
  | "super" => return .super (.bare (← token "keyword")) (← token "method")
  | "this" => return .this (.bare (← token "keyword"))
  | "unary" => return .unary (← token "operator") (← expr "right")
  | "variable" => return .variable (.bare (← token "name"))
  | _ => none

/-- The statement with a tag. -/
def stmt? (tag : String) : Option SourceStmt :=
  let expr := members.read? Shown.expr?
  let token := members.read? Shown.token?
  let stmt := members.read? Shown.stmt?
  let stmts := members.read? (Shown.listOf? Shown.stmt?)
  match tag with
  | "block" => return .block (← stmts "statements")
  | "expression" => return .expression (← expr "expression")
  | "function" =>
    return .function ⟨← token "name", ← members.read? (Shown.listOf? Shown.token?) "params", ← stmts "body"⟩
  | "class" =>
    return .class (← token "name") (← members.read? (Shown.optional? Shown.reference?) "superclass")
      (← members.read? (Shown.listOf? Shown.funDecl?) "methods")
  | "if" =>
    return .if (← expr "condition") (← stmt "then_branch")
      (← members.read? (Shown.optional? Shown.stmt?) "else_branch")
  | "print" => return .print (← expr "expression")
  | "return" => return .return (← token "keyword") (← members.read? (Shown.optional? Shown.expr?) "value")
  | "var" => return .var (← token "name") (← members.read? (Shown.optional? Shown.expr?) "initializer")
  | "while" => return .while (← expr "condition") (← stmt "body")
  | _ => none

/-- A token or a node. -/
def shown? : Option Shown := do
  let tag ← members.read? Shown.text? "kind"
  match Kind.ofName? tag with
  | some kind => .token <$> members.token? kind
  | none => .expr <$> members.expr? tag <|> .stmt <$> members.stmt? tag

end Members

mutual

/-- What a document shows. -/
def Json.shown? : Json → Option Shown
  | .null => some (.literal .nil)
  | .bool b => some (.literal (.bool b))
  | .integer n => some (.line n)
  | .number x => some (.literal (.number x))
  | .string s => some (.literal (.string s))
  | .array items => .list <$> Json.allShown? items
  | .object members => do (← Json.membersShown? members).shown?
  | .unwritable _ => none

/-- What the items of an array show. -/
def Json.allShown? : List Json → Option (List Shown)
  | [] => some []
  | item :: items => return (← item.shown?) :: (← Json.allShown? items)

/-- What the members of an object show. -/
def Json.membersShown? : List (String × Json) → Option Members
  | [] => some []
  | (name, value) :: members => return (name, ← value.shown?) :: (← Json.membersShown? members)

end

/-- The tokens that an artifact shows. -/
def Json.tokens? (document : Json) : Option (List Token) :=
  document.shown? >>= Shown.listOf? Shown.token?

/-- The statements that an artifact shows. -/
def Json.program? (document : Json) : Option (List SourceStmt) :=
  document.shown? >>= Shown.listOf? Shown.stmt?

/-! ## Members

What is found under a name does not depend on the members of other names. -/

@[simp] theorem Members.read?_cons {α : Type} (read : Shown → Option α) (name name' : String) (part : Shown)
    (members : Members) :
    Members.read? ((name', part) :: members) read name
      = if name = name' then read part else Members.read? members read name := by
  unfold Members.read?
  rw [List.lookup]
  by_cases h : name = name'
  · simp [h]
  · simp [h, beq_eq_false_iff_ne.mpr h]

/-- Items that are read back one by one are read back together. -/
theorem Shown.listOf?_map {α : Type} (read : Shown → Option α) (write : α → Shown)
    (h : ∀ a, read (write a) = some a) (as : List α) : Shown.listOf? read (.list (as.map write)) = some as := by
  unfold Shown.listOf?
  induction as with
  | nil => rfl
  | cons a as ih => simp_all [List.mapM_cons]

@[simp] theorem Shown.listOf?_tokens (ts : List Token) : Shown.listOf? Shown.token? (.list (ts.map .token)) = some ts :=
  Shown.listOf?_map Shown.token? Shown.token (fun _ => rfl) ts

@[simp] theorem Shown.listOf?_exprs (es : List SourceExpr) :
    Shown.listOf? Shown.expr? (.list (es.map .expr)) = some es :=
  Shown.listOf?_map Shown.expr? Shown.expr (fun _ => rfl) es

@[simp] theorem Shown.listOf?_stmts (ss : List SourceStmt) :
    Shown.listOf? Shown.stmt? (.list (ss.map .stmt)) = some ss :=
  Shown.listOf?_map Shown.stmt? Shown.stmt (fun _ => rfl) ss

@[simp] theorem Shown.listOf?_funDecls (ds : List SourceFun) :
    Shown.listOf? Shown.funDecl? (.list (ds.map fun d => .stmt (.function d))) = some ds :=
  Shown.listOf?_map Shown.funDecl? _ (fun _ => rfl) ds

/-! ## Tokens

A token is written with the name of its kind, its lexeme, its literal and its line, and each of these is read back. -/

/-- A finite number is written as a number; for the others there is none in the notation. -/
theorem Literal.shown_toJson {l : Literal} (h : l.isFinite = true) : l.toJson.shown? = some (.literal l) := by
  cases l with
  | number x =>
    have hx : x.isFinite = true := h
    rw [Literal.toJson, if_pos hx]
    rfl
  | nil | bool | string => rfl

/-- Different kinds have different names. -/
theorem Kind.ofName_name (k : Kind) : Kind.ofName? k.name = some k := by
  cases k <;> rfl

theorem Token.shown_toJson {t : Token} (h : t.IsFinite) : t.toJson.shown? = some (.token t) := by
  have hliteral : t.literal.toJson.shown? = some (.literal t.literal) := Literal.shown_toJson h
  simp [Token.toJson, Json.shown?, Json.membersShown?, hliteral, Members.shown?, Members.token?, Kind.ofName_name]

/-- Tokens are read back one by one. -/
theorem Token.allShown_toJson {ts : List Token} (h : ∀ t ∈ ts, t.IsFinite) :
    Json.allShown? (ts.map (·.toJson)) = some (ts.map .token) := by
  induction ts with
  | nil => rfl
  | cons t ts ih =>
    obtain ⟨ht, hts⟩ := List.forall_mem_cons.mp h
    simp [Json.allShown?, Token.shown_toJson ht, ih hts]

/-! ## Nodes

A node is read back if its parts are. The tag tells which reader to use, and no tag is the name of a kind of tokens. -/

/-- What stands at a tag is read from the members behind it. -/
theorem Json.shown_node (tag : String) (fields : List (String × Json)) (htag : Kind.ofName? tag = none) :
    (Json.node tag fields).shown? = (do
      let members : Members := ("kind", .literal (.string tag)) :: (← Json.membersShown? fields)
      Shown.expr <$> members.expr? tag <|> Shown.stmt <$> members.stmt? tag) := by
  unfold Json.node
  rw [Json.shown?, Json.membersShown?]
  cases Json.membersShown? fields with
  | none => rfl
  | some members => simp [Json.shown?, Members.shown?, htag]

/-- A literal that was taken from a finite token is finite. -/
theorem Literal.Drawn.isFinite {l : Literal} (h : l.Drawn Token.IsFinite) : l.isFinite = true := by
  cases h with
  | nil => rfl
  | bool b => rfl
  | token ht => exact ht.2

mutual

/-- The document of an expression shows that expression: every part has a member of its own, and the tag is that of its
form. -/
theorem Expr.shown_toJson {e : SourceExpr} (h : e.Drawn Token.IsFinite) :
    e.toJson.shown? = some (.expr e) := by
  -- each case reads the parts back, and then the members under the tag of the form are those that its reader asks for
  cases e with
  | assign target value =>
    have hname := Token.shown_toJson h.1.2
    have hvalue := Expr.shown_toJson h.2
    rw [Expr.toJson, Json.shown_node _ _ (by rfl)]
    simp [Json.membersShown?, hname, hvalue, Members.expr?, Reference.bare]
  | binary left operator right =>
    have hleft := Expr.shown_toJson h.1
    have hoperator := Token.shown_toJson h.2.1.2
    have hright := Expr.shown_toJson h.2.2
    rw [Expr.toJson, Json.shown_node _ _ (by rfl)]
    simp [Json.membersShown?, hleft, hoperator, hright, Members.expr?]
  | call callee paren arguments =>
    have hcallee := Expr.shown_toJson h.1
    have hparen := Token.shown_toJson h.2.1.2
    have harguments := Expr.allShown_toJson h.2.2
    rw [Expr.toJson, Json.shown_node _ _ (by rfl)]
    simp [Json.membersShown?, Json.shown?, hcallee, hparen, harguments, Members.expr?]
  | get object name =>
    have hobject := Expr.shown_toJson h.1
    have hname := Token.shown_toJson h.2.2
    rw [Expr.toJson, Json.shown_node _ _ (by rfl)]
    simp [Json.membersShown?, hobject, hname, Members.expr?]
  | grouping inner =>
    have hinner := Expr.shown_toJson (e := inner) h
    rw [Expr.toJson, Json.shown_node _ _ (by rfl)]
    simp [Json.membersShown?, hinner, Members.expr?]
  | literal value =>
    have hvalue := Literal.shown_toJson (Literal.Drawn.isFinite h)
    rw [Expr.toJson, Json.shown_node _ _ (by rfl)]
    simp [Json.membersShown?, hvalue, Members.expr?]
  | logical left operator right =>
    have hleft := Expr.shown_toJson h.1
    have hoperator := Token.shown_toJson h.2.1.2
    have hright := Expr.shown_toJson h.2.2
    rw [Expr.toJson, Json.shown_node _ _ (by rfl)]
    simp [Json.membersShown?, hleft, hoperator, hright, Members.expr?]
  | set object name value =>
    have hobject := Expr.shown_toJson h.1
    have hname := Token.shown_toJson h.2.1.2
    have hvalue := Expr.shown_toJson h.2.2
    rw [Expr.toJson, Json.shown_node _ _ (by rfl)]
    simp [Json.membersShown?, hobject, hname, hvalue, Members.expr?]
  | super keyword method =>
    have hkeyword := Token.shown_toJson h.1.2
    have hmethod := Token.shown_toJson h.2.2
    rw [Expr.toJson, Json.shown_node _ _ (by rfl)]
    simp [Json.membersShown?, hkeyword, hmethod, Members.expr?, Reference.bare]
  | this keyword =>
    have hkeyword := Token.shown_toJson h.2
    rw [Expr.toJson, Json.shown_node _ _ (by rfl)]
    simp [Json.membersShown?, hkeyword, Members.expr?, Reference.bare]
  | unary operator right =>
    have hoperator := Token.shown_toJson h.1.2
    have hright := Expr.shown_toJson h.2
    rw [Expr.toJson, Json.shown_node _ _ (by rfl)]
    simp [Json.membersShown?, hoperator, hright, Members.expr?]
  | «variable» reference =>
    have hname := Token.shown_toJson h.2
    rw [Expr.toJson, Reference.toJson, Json.shown_node _ _ (by rfl)]
    simp [Json.membersShown?, hname, Members.expr?, Reference.bare]
  | unknown => exact h.elim

theorem Expr.allShown_toJson {es : List SourceExpr} (h : Expr.Drawn.all Token.IsFinite es) :
    Json.allShown? (Expr.toJson.all es) = some (es.map .expr) := by
  cases es with
  | nil => rfl
  | cons e es =>
    have he := Expr.shown_toJson h.1
    have hes := Expr.allShown_toJson h.2
    simp [Expr.toJson.all, Json.allShown?, he, hes]

end

mutual

/-- The document of a statement shows that statement, also where an `else`, an initializer or a value is missing. -/
theorem Stmt.shown_toJson {s : SourceStmt} (h : s.Drawn Token.IsFinite) : s.toJson.shown? = some (.stmt s) := by
  -- as for expressions; parts that may be missing are written as null
  cases s with
  | block body =>
    have hdrawn : Stmt.AllDrawn Token.IsFinite body := h
    have hbody := Stmt.allShown_toJson hdrawn
    rw [Stmt.toJson, Json.shown_node _ _ (by rfl)]
    simp [Json.membersShown?, Json.shown?, hbody, Members.expr?, Members.stmt?]
  | expression value =>
    have hvalue := Expr.shown_toJson (e := value) h
    rw [Stmt.toJson, Json.shown_node _ _ (by rfl)]
    simp [Json.membersShown?, hvalue, Members.expr?, Members.stmt?]
  | function declaration => exact FunDecl.shown_toJson (d := declaration) h
  | «class» name superclass methods =>
    have hname := Token.shown_toJson h.1.2
    have hmethods := FunDecl.allShown_toJson h.2.2
    rw [Stmt.toJson, Json.shown_node _ _ (by rfl)]
    cases superclass with
    | none =>
      simp [Json.membersShown?, Json.shown?, Json.optional, hname, hmethods, Members.expr?, Members.stmt?,
        Shown.optional?]
    | some r =>
      -- a superclass is shown as the use of a variable
      have hr := Expr.shown_toJson (e := .variable r) (h.2.1 r rfl)
      rw [Expr.toJson] at hr
      simp [Json.membersShown?, Json.shown?, Json.optional, hname, hr, hmethods, Members.expr?, Members.stmt?,
        Shown.optional?]
  | «if» condition thenBranch elseBranch =>
    obtain ⟨hcondition, hthen, helse⟩ := Stmt.drawn_if.mp h
    have hcondition := Expr.shown_toJson hcondition
    have hthen := Stmt.shown_toJson hthen
    cases elseBranch with
    | none =>
      rw [Stmt.toJson, Json.shown_node _ _ (by rfl)]
      simp [Json.membersShown?, Json.shown?, hcondition, hthen, Members.expr?, Members.stmt?, Shown.optional?]
    | some s =>
      have helse := Stmt.shown_toJson (helse s rfl)
      rw [Stmt.toJson, Json.shown_node _ _ (by rfl)]
      simp [Json.membersShown?, hcondition, hthen, helse, Members.expr?, Members.stmt?, Shown.optional?]
  | print value =>
    have hvalue := Expr.shown_toJson (e := value) h
    rw [Stmt.toJson, Json.shown_node _ _ (by rfl)]
    simp [Json.membersShown?, hvalue, Members.expr?, Members.stmt?]
  | «return» keyword value =>
    have hkeyword := Token.shown_toJson h.1.2
    rw [Stmt.toJson, Json.shown_node _ _ (by rfl)]
    cases value with
    | none =>
      simp [Json.membersShown?, Json.shown?, Json.optional, hkeyword, Members.expr?, Members.stmt?, Shown.optional?]
    | some e =>
      have he := Expr.shown_toJson (h.2 e rfl)
      simp [Json.membersShown?, Json.optional, hkeyword, he, Members.expr?, Members.stmt?, Shown.optional?]
  | var name initializer =>
    have hname := Token.shown_toJson h.1.2
    rw [Stmt.toJson, Json.shown_node _ _ (by rfl)]
    cases initializer with
    | none =>
      simp [Json.membersShown?, Json.shown?, Json.optional, hname, Members.expr?, Members.stmt?, Shown.optional?]
    | some e =>
      have he := Expr.shown_toJson (h.2 e rfl)
      simp [Json.membersShown?, Json.optional, hname, he, Members.expr?, Members.stmt?, Shown.optional?]
  | «while» condition body =>
    have hcondition := Expr.shown_toJson h.1
    have hbody := Stmt.shown_toJson h.2
    rw [Stmt.toJson, Json.shown_node _ _ (by rfl)]
    simp [Json.membersShown?, hcondition, hbody, Members.expr?, Members.stmt?]
  | unknown => exact h.elim

theorem Stmt.allShown_toJson {ss : List SourceStmt} (h : Stmt.AllDrawn Token.IsFinite ss) :
    Json.allShown? (Stmt.allToJson ss) = some (ss.map .stmt) := by
  cases ss with
  | nil => rfl
  | cons s ss =>
    have hs := Stmt.shown_toJson h.1
    have hss := Stmt.allShown_toJson h.2
    simp [Stmt.allToJson, Json.allShown?, hs, hss]

theorem FunDecl.shown_toJson {d : SourceFun} (h : d.Drawn Token.IsFinite) :
    d.toJson.shown? = some (.stmt (.function d)) := by
  obtain ⟨name, params, body⟩ := d
  have hname := Token.shown_toJson h.1.2
  have hparams := Token.allShown_toJson fun t ht => (h.2.1 t ht).2
  have hbody := Stmt.allShown_toJson h.2.2
  rw [FunDecl.toJson, Json.shown_node _ _ (by rfl)]
  simp [Json.membersShown?, Json.shown?, hname, hparams, hbody, Members.expr?, Members.stmt?]

theorem FunDecl.allShown_toJson {ds : List SourceFun} (h : FunDecl.AllDrawn Token.IsFinite ds) :
    Json.allShown? (FunDecl.allToJson ds) = some (ds.map fun d => .stmt (.function d)) := by
  cases ds with
  | nil => rfl
  | cons d ds =>
    have hd := FunDecl.shown_toJson h.1
    have hds := FunDecl.allShown_toJson h.2
    simp [FunDecl.allToJson, Json.allShown?, hd, hds]

end

end LoxLang
