import LoxLang.Proofs.Notation.Trees
import LoxLang.Proofs.Scope.Resolved

/-!
# Reading trees back from their texts

The first word of a list tells what node it stands for, together with the number of its parts. Words of other places
are names, however they are spelled. A reader of numbers is assumed, since what is printed of a number tells which it
is.

* **`Expr.read_sexp`**, **`Stmt.read_sexp`** — a tree of plain tokens is read back, on no line.
* **`printing_unambiguous`** — programs are printed alike exactly if they are alike but for the lines of their
  tokens.
-/

namespace LoxLang

/-! ## Readers

They invert the printer on trees of plain tokens. What they do with other texts does not matter. -/

section Readers

variable (number : String → Float)

/-- The expression of a word. -/
def Expr.ofWord (w : String) : SourceExpr :=
  if w.toList.head?.any Char.isDigit then .literal (.number (number w))
  else
    match Kind.ofWord w with
    | .nil => .literal .nil
    | .true => .literal (.bool true)
    | .false => .literal (.bool false)
    | .this => .this (.bare (.of .this))
    | _ => .variable (.bare (.named w))

/-- The words of a list of words. -/
def Sexp.words? : List Sexp → Option (List String)
  | [] => some []
  | .word w :: ps => (w :: ·) <$> words? ps
  | _ => none

mutual

/-- The expression of a word, a quoted text or a list. -/
def Sexp.expr? : Sexp → Option SourceExpr
  | .word w => some (.ofWord number w)
  | .quoted s => some (.literal (.string s))
  | .list (.word head :: parts) =>
    match head, parts with
    | "=", [.word name, value] => return .assign (.bare (.named name)) (← value.expr?)
    | "=", [.word ".", .word name, object, value] =>
      return .set (← object.expr?) (.named name) (← value.expr?)
    | "call", callee :: arguments => return .call (← callee.expr?) (.of .rightParen) (← Sexp.exprs? arguments)
    | ".", [.word name, object] => return .get (← object.expr?) (.named name)
    | "group", [inner] => return .grouping (← inner.expr?)
    | "super", [.word method] => return .super (.bare (.of .super)) (.named method)
    | operator, [right] => return .unary (← Token.operator? [.bang, .minus] operator) (← right.expr?)
    | operator, [left, right] =>
      match Token.operator? [.or, .and] operator with
      | some t => return .logical (← left.expr?) t (← right.expr?)
      | none => return .binary (← left.expr?) (← Token.operator? Kind.binary operator) (← right.expr?)
    | _, _ => none
  | .list _ => none

/-- The expressions of a list. -/
def Sexp.exprs? : List Sexp → Option (List SourceExpr)
  | [] => some []
  | p :: ps => return (← p.expr?) :: (← Sexp.exprs? ps)

end

/-- The declaration of a function. -/
def Stmt.funDecl? : SourceStmt → Option SourceFun
  | .function d => some d
  | _ => none

mutual

/-- The statement of a list. -/
def Sexp.stmt? : Sexp → Option SourceStmt
  | .list (.word head :: parts) =>
    match head, parts with
    | "block", body => return .block (← Sexp.stmts? body)
    | ";", [value] => return .expression (← value.expr? number)
    | "fun", .word name :: .list params :: body =>
      return .function ⟨.named name, (← Sexp.words? params).map .named, ← Sexp.stmts? body⟩
    | "class", .word name :: .word "<" :: .word superclass :: methods =>
      return .class (.named name) (some (.bare (.named superclass)))
        (← (← Sexp.stmts? methods).mapM Stmt.funDecl?)
    | "class", .word name :: methods =>
      return .class (.named name) none (← (← Sexp.stmts? methods).mapM Stmt.funDecl?)
    | "if", [condition, thenBranch] => return .if (← condition.expr? number) (← thenBranch.stmt?) none
    | "if", [condition, thenBranch, elseBranch] =>
      return .if (← condition.expr? number) (← thenBranch.stmt?) (some (← elseBranch.stmt?))
    | "print", [value] => return .print (← value.expr? number)
    | "return", [] => return .return (.of .return) none
    | "return", [value] => return .return (.of .return) (some (← value.expr? number))
    | "var", [.word name] => return .var (.named name) none
    | "var", [.word name, value] => return .var (.named name) (some (← value.expr? number))
    | "while", [condition, body] => return .while (← condition.expr? number) (← body.stmt?)
    | _, _ => none
  | _ => none

/-- The statements of lists. -/
def Sexp.stmts? : List Sexp → Option (List SourceStmt)
  | [] => some []
  | p :: ps => return (← p.stmt?) :: (← Sexp.stmts? ps)

end

/-! ## Lists with an operator

The first word of a list may be a fixed one or an operator. None of the operators is spelled like a fixed word, so that
these cases exclude each other. -/

/-- The heads of lists that are no operators. -/
def Sexp.heads : List String :=
  ["=", "call", ".", "group", "super"]

/-- Two parts and no fixed word: a prefix operator. -/
theorem Sexp.expr?_unary {w : String} (hw : w ∉ Sexp.heads) (right : Sexp) :
    (Sexp.list [.word w, right]).expr? number
      = (do return .unary (← Token.operator? [.bang, .minus] w) (← right.expr? number)) := by
  simp only [Sexp.heads, List.mem_cons, List.not_mem_nil, or_false, not_or] at hw
  rw [Sexp.expr?.eq_def]
  dsimp only
  split <;> simp_all

/-- Three parts and a logical operator. -/
theorem Sexp.expr?_logical {w : String} (hw : w ∉ Sexp.heads) {t : Token}
    (ht : Token.operator? [.or, .and] w = some t) (left right : Sexp) :
    (Sexp.list [.word w, left, right]).expr? number
      = (do return .logical (← left.expr? number) t (← right.expr? number)) := by
  simp only [Sexp.heads, List.mem_cons, List.not_mem_nil, or_false, not_or] at hw
  rw [Sexp.expr?.eq_def]
  dsimp only
  split <;> simp_all

/-- Three parts and any other operator. -/
theorem Sexp.expr?_binary {w : String} (hw : w ∉ Sexp.heads) (hnone : Token.operator? [.or, .and] w = none)
    (left right : Sexp) :
    (Sexp.list [.word w, left, right]).expr? number
      = (do return .binary (← left.expr? number) (← Token.operator? Kind.binary w) (← right.expr? number)) := by
  simp only [Sexp.heads, List.mem_cons, List.not_mem_nil, or_false, not_or] at hw
  rw [Sexp.expr?.eq_def]
  dsimp only
  split <;> simp_all

variable {number}

/-- A word that is no literal is a name. -/
theorem Expr.ofWord_named {t : Token} (h : t.Is Token.Plain .identifier) :
    Expr.ofWord number t.lexeme = .variable (.bare (.named t.lexeme)) := by
  -- it begins with a letter and is not reserved
  obtain ⟨-, c, cs, hlexeme, hc, -, hno⟩ := h.2.1.identifier h.1
  have hdigit : c.isDigit = false := Bool.eq_false_iff.mpr fun hd => hc.not_isDigit (isDigit_iff.mp hd)
  have hhead : t.lexeme.toList.head?.any Char.isDigit = false := by
    rw [hlexeme]
    exact hdigit
  rw [Expr.ofWord, hhead, ofWord_of_forall_notMem hno]
  rfl

/-- No operator is spelled like a fixed word. -/
theorem Token.Among.lexeme_notMem {t : Token} {kinds : List Kind} (h : t.Among Token.Plain kinds)
    (hkinds : OperatorKinds kinds) (hheads : ∀ k ∈ kinds, k.spelling ∉ Sexp.heads) : t.lexeme ∉ Sexp.heads := by
  rw [(h.2.eq_of (hkinds.spelled t.kind h.1)).1]
  exact hheads t.kind h.1

/-! ## Expressions

By the form of the expression: its list is read by the case for its first word, and the parts are read back by
induction. -/

/-- The reader of numbers reads what is printed of plain numbers. -/
def ReadsNumbers (number : String → Float) : Prop :=
  ∀ x, PlainNumber x → number (Layout.printed.text x) = x

theorem Literal.Plain.read_sexp (hnumber : ReadsNumbers number) {l : Literal} (h : l.Plain) :
    l.sexp.expr? number = some (.literal l) := by
  cases h with
  | nil => rfl
  | bool b => cases b <;> rfl
  | @number x hx =>
    have hread : Expr.ofWord number (Layout.printed.text x) = .literal (.number x) := by
      rw [Expr.ofWord, hx.word.2, hnumber x hx]
      rfl
    exact congrArg some hread
  | string hs => rfl

mutual

/-- An expression of plain tokens is read back from its words and lists, on no line. -/
theorem Expr.read_sexp (hnumber : ReadsNumbers number) {e : SourceExpr} (h : e.Drawn Token.Plain) :
    e.sexp.expr? number = some (e.moved .none) := by
  cases e with
  | assign target value =>
    have hname := h.1.moved_named
    have hvalue := Expr.read_sexp hnumber h.2
    simp [Expr.sexp, Sexp.expr?, hvalue, Expr.moved, Reference.moved, hname, Reference.bare]
  | binary left operator right =>
    have hheads := h.2.1.lexeme_notMem operators_binary (by decide)
    have hoperator := h.2.1.operator operators_binary
    -- no such operator is spelled as a word
    have hlogical : Token.operator? [.or, .and] operator.lexeme = none := by
      have hnone : ∀ k ∈ Kind.binary, [Kind.or, .and].find? (·.spelling == k.spelling) = none := by decide
      rw [Token.operator?, (h.2.1.2.eq_of (operators_binary.spelled _ h.2.1.1)).1, hnone _ h.2.1.1]
      rfl
    have hleft := Expr.read_sexp hnumber h.1
    have hright := Expr.read_sexp hnumber h.2.2
    rw [Expr.sexp, Sexp.expr?_binary number hheads hlogical]
    simp [hleft, hoperator, hright, Expr.moved]
  | call callee paren arguments =>
    have hcallee := Expr.read_sexp hnumber h.1
    have hparen := h.2.1.moved_of (by decide)
    have harguments := Expr.read_sexps hnumber h.2.2
    simp [Expr.sexp, Sexp.expr?, hcallee, harguments, Expr.moved, hparen]
  | get object name =>
    have hobject := Expr.read_sexp hnumber h.1
    have hname := h.2.moved_named
    simp [Expr.sexp, Sexp.expr?, hobject, Expr.moved, hname]
  | grouping inner =>
    have hinner := Expr.read_sexp hnumber (e := inner) h
    simp [Expr.sexp, Sexp.expr?, hinner, Expr.moved]
  | literal value => exact (Literal.Drawn.plain h).read_sexp hnumber
  | logical left operator right =>
    have hheads := h.2.1.lexeme_notMem operators_logical (by decide)
    have hoperator := h.2.1.operator operators_logical
    have hleft := Expr.read_sexp hnumber h.1
    have hright := Expr.read_sexp hnumber h.2.2
    rw [Expr.sexp, Sexp.expr?_logical number hheads hoperator]
    simp [hleft, hright, Expr.moved]
  | set object name value =>
    have hobject := Expr.read_sexp hnumber h.1
    have hname := h.2.1.moved_named
    have hvalue := Expr.read_sexp hnumber h.2.2
    simp [Expr.sexp, Sexp.expr?, hobject, hvalue, Expr.moved, hname]
  | super keyword method =>
    have hkeyword := h.1.moved_of (by decide)
    have hmethod := h.2.moved_named
    simp [Expr.sexp, Sexp.expr?, Expr.moved, Reference.moved, hkeyword, hmethod, Reference.bare]
  | this keyword =>
    have hkeyword := Token.Is.moved_of h (by decide)
    have hword : Expr.ofWord number "this" = .this (.bare (.of .this)) := rfl
    simp [Expr.sexp, Sexp.expr?, hword, Expr.moved, Reference.moved, hkeyword, Reference.bare]
  | unary operator right =>
    have hheads := h.1.lexeme_notMem operators_unary (by decide)
    have hoperator := h.1.operator operators_unary
    have hright := Expr.read_sexp hnumber h.2
    rw [Expr.sexp, Sexp.expr?_unary number hheads]
    simp [hoperator, hright, Expr.moved]
  | «variable» reference =>
    have hname := Token.Is.moved_named h
    have hword : Expr.ofWord number reference.name.lexeme = _ := Expr.ofWord_named h
    simp [Expr.sexp, Sexp.expr?, hword, Expr.moved, Reference.moved, hname, Reference.bare]
  | unknown => exact h.elim

theorem Expr.read_sexps (hnumber : ReadsNumbers number) {es : List SourceExpr}
    (h : Expr.Drawn.all Token.Plain es) :
    Sexp.exprs? number (Expr.sexp.all es) = some (Expr.moved.all .none es) := by
  cases es with
  | nil => rfl
  | cons e es =>
    have he := Expr.read_sexp hnumber h.1
    have hes := Expr.read_sexps hnumber h.2
    simp [Expr.sexp.all, Sexp.exprs?, he, hes, Expr.moved.all]

end

/-! ## Statements

Functions have names and parameters in lists of their own; classes show their superclass by a word. -/

/-- Parameters are read back as words. -/
theorem Sexp.words?_words (ts : List Token) : Sexp.words? (ts.map (.word ·.lexeme)) = some (ts.map (·.lexeme)) := by
  induction ts with
  | nil => rfl
  | cons t ts ih =>
    rw [List.map_cons, Sexp.words?, ih]
    rfl

theorem Token.map_moved_named {ts : List Token} (h : ∀ t ∈ ts, t.Is Token.Plain .identifier) :
    ts.map (·.moved .none) = (ts.map (·.lexeme)).map .named := by
  rw [List.map_map]
  exact List.map_congr_left fun t ht => (h t ht).moved_named

theorem mapM_funDecl? (ds : List SourceFun) : (ds.map .function).mapM Stmt.funDecl? = some ds := by
  induction ds with
  | nil => rfl
  | cons d ds ih =>
    rw [List.map_cons, List.mapM_cons, ih]
    rfl

/-- No word stands behind the name of a class without a superclass, since methods are lists. -/
theorem Sexp.stmt?_class (name : String) (methods : List SourceFun) :
    (Sexp.list (.word "class" :: .word name :: FunDecl.sexps methods)).stmt? number
      = (do
        let stmts ← Sexp.stmts? number (FunDecl.sexps methods)
        return .class (.named name) none (← stmts.mapM Stmt.funDecl?)) := by
  cases methods with
  | nil => rfl
  | cons d ds =>
    obtain ⟨name', params, body⟩ := d
    rfl

mutual

/-- A statement of plain tokens is read back, and missing parts are told from the others by the number of words. -/
theorem Stmt.read_sexp (hnumber : ReadsNumbers number) {s : SourceStmt} (h : s.Drawn Token.Plain) :
    s.sexp.stmt? number = some (s.moved .none) := by
  cases s with
  | block body =>
    have hdrawn : Stmt.AllDrawn Token.Plain body := h
    have hbody := Stmt.read_sexps hnumber hdrawn
    simp [Stmt.sexp, Sexp.stmt?, hbody, Stmt.moved]
  | expression value =>
    have hvalue := Expr.read_sexp hnumber (e := value) h
    simp [Stmt.sexp, Sexp.stmt?, hvalue, Stmt.moved]
  | function declaration => exact FunDecl.read_sexp hnumber (d := declaration) h
  | «class» name superclass methods =>
    have hname := h.1.moved_named
    have hmethods := FunDecl.read_sexps hnumber h.2.2
    have hlist := mapM_funDecl? (FunDecl.movedAll .none methods)
    cases superclass with
    | some r =>
      have hr := (h.2.1 r rfl).moved_named
      simp [Stmt.sexp, Sexp.stmt?, hmethods, hlist, Stmt.moved, hname, Reference.moved, hr, Reference.bare]
    | none =>
      simp [Stmt.sexp, Sexp.stmt?_class, hmethods, hlist, Stmt.moved, hname]
  | «if» condition thenBranch elseBranch =>
    -- the two forms have lists of different lengths, so they cannot be confused
    obtain ⟨hcondition, hthen, helse⟩ := Stmt.drawn_if.mp h
    have hcondition := Expr.read_sexp hnumber hcondition
    have hthen := Stmt.read_sexp hnumber hthen
    cases elseBranch with
    | none => simp [Stmt.sexp, Sexp.stmt?, hcondition, hthen, Stmt.moved]
    | some s =>
      have helse := Stmt.read_sexp hnumber (helse s rfl)
      simp [Stmt.sexp, Sexp.stmt?, hcondition, hthen, helse, Stmt.moved]
  | print value =>
    have hvalue := Expr.read_sexp hnumber (e := value) h
    simp [Stmt.sexp, Sexp.stmt?, hvalue, Stmt.moved]
  | «return» keyword value =>
    have hkeyword := h.1.moved_of (by decide)
    cases value with
    | none => simp [Stmt.sexp, Sexp.stmt?, Stmt.moved, hkeyword]
    | some e =>
      have he := Expr.read_sexp hnumber (h.2 e rfl)
      simp [Stmt.sexp, Sexp.stmt?, he, Stmt.moved, hkeyword]
  | var name initializer =>
    have hname := h.1.moved_named
    cases initializer with
    | none => simp [Stmt.sexp, Sexp.stmt?, Stmt.moved, hname]
    | some e =>
      have he := Expr.read_sexp hnumber (h.2 e rfl)
      simp [Stmt.sexp, Sexp.stmt?, he, Stmt.moved, hname]
  | «while» condition body =>
    have hcondition := Expr.read_sexp hnumber h.1
    have hbody := Stmt.read_sexp hnumber h.2
    simp [Stmt.sexp, Sexp.stmt?, hcondition, hbody, Stmt.moved]
  | unknown => exact h.elim

theorem Stmt.read_sexps (hnumber : ReadsNumbers number) {ss : List SourceStmt}
    (h : Stmt.AllDrawn Token.Plain ss) :
    Sexp.stmts? number (Stmt.sexps ss) = some (Stmt.movedAll .none ss) := by
  cases ss with
  | nil => rfl
  | cons s ss =>
    have hs := Stmt.read_sexp hnumber h.1
    have hss := Stmt.read_sexps hnumber h.2
    simp [Stmt.sexps, Sexp.stmts?, hs, hss, Stmt.movedAll]

theorem FunDecl.read_sexp (hnumber : ReadsNumbers number) {d : SourceFun} (h : d.Drawn Token.Plain) :
    d.sexp.stmt? number = some (.function (d.moved .none)) := by
  obtain ⟨name, params, body⟩ := d
  have hname := h.1.moved_named
  have hparams := Token.map_moved_named h.2.1
  have hbody := Stmt.read_sexps hnumber h.2.2
  simp [FunDecl.sexp, Sexp.stmt?, Sexp.words?_words, hbody, FunDecl.moved, hname, hparams]

theorem FunDecl.read_sexps (hnumber : ReadsNumbers number) {ds : List SourceFun}
    (h : FunDecl.AllDrawn Token.Plain ds) :
    Sexp.stmts? number (FunDecl.sexps ds) = some ((FunDecl.movedAll .none ds).map .function) := by
  cases ds with
  | nil => rfl
  | cons d ds =>
    have hd := FunDecl.read_sexp hnumber h.1
    have hds := FunDecl.read_sexps hnumber h.2
    simp [FunDecl.sexps, Sexp.stmts?, hd, hds, FunDecl.movedAll]

end

end Readers

/-! ## Programs

Equal texts are read alike, and since reading undoes printing the trees are equal but for their lines. -/

/-- There is a reader of numbers, since what is printed of plain numbers tells them apart. -/
theorem exists_readsNumbers : ∃ number, ReadsNumbers number := by
  have hinjective : Set.InjOn Layout.printed.text {x | PlainNumber x} := fun x hx y hy h =>
    printed_plain_injective hx hy h
  exact ⟨Function.invFunOn Layout.printed.text {x | PlainNumber x}, fun x hx => hinjective.leftInvOn_invFunOn hx⟩

/-- What the scanner reads is plain, if its numbers are finite. -/
theorem scan_plain {source : String} (h : ∀ t ∈ (scan source).tokens, t.IsFinite) :
    ∀ t ∈ (scan source).tokens, t.Plain :=
  fun t ht => ⟨scan_scanned source t ht, h t ht⟩

/-- **Printing is unambiguous.** Every program has a text, and when the numbers of two texts are finite, their programs
are printed alike exactly if they are alike but for the lines of their tokens. -/
theorem printing_unambiguous (source source' : String) (hfinite : ∀ t ∈ (scan source).tokens, t.IsFinite)
    (hfinite' : ∀ t ∈ (scan source').tokens, t.IsFinite) :
    ∃ parsed parsed' text text', parse (scan source).tokens = some parsed ∧
      parse (scan source').tokens = some parsed' ∧ programText parsed.program = .ok text ∧
      programText parsed'.program = .ok text' ∧
      (text = text' ↔
        Stmt.movedAll (fun _ => 0) parsed.program = Stmt.movedAll (fun _ => 0) parsed'.program) := by
  obtain ⟨program, ds, hparse, -⟩ := parse_scan source
  obtain ⟨program', ds', hparse', -⟩ := parse_scan source'
  have hdrawn : Stmt.AllDrawn Token.Plain program := parse_drawn hparse (scan_plain hfinite)
  have hdrawn' : Stmt.AllDrawn Token.Plain program' := parse_drawn hparse' (scan_plain hfinite')
  refine ⟨_, _, _, _, hparse, hparse', programText_eq hdrawn, programText_eq hdrawn', fun htext => ?_,
    fun hmoved => ?_⟩
  · have hsexps := Sexp.lines_unique (Stmt.sexps_proper hdrawn) (Stmt.sexps_proper hdrawn') htext
    -- the same lists are read as both programs
    obtain ⟨number, hnumber⟩ := exists_readsNumbers
    have hread := Stmt.read_sexps hnumber hdrawn
    rw [hsexps, Stmt.read_sexps hnumber hdrawn'] at hread
    exact (Option.some.inj hread).symm
  · have hsexps := congrArg Stmt.sexps hmoved
    rw [Stmt.sexps_moved, Stmt.sexps_moved] at hsexps
    rw [hsexps]

/-- A number that is spelled in two ways, on another line. -/
theorem printing_unambiguous_respelled :
    ∃ parsed parsed' text text', parse (scan "print (1 + 2) - a.call;").tokens = some parsed ∧
      parse (scan "print (1 + 2.0)\n- a.call;").tokens = some parsed' ∧ programText parsed.program = .ok text ∧
      programText parsed'.program = .ok text' ∧
      (text = text' ↔
        Stmt.movedAll (fun _ => 0) parsed.program = Stmt.movedAll (fun _ => 0) parsed'.program) :=
  printing_unambiguous _ _ (by decide +kernel) (by decide +kernel)

end LoxLang
