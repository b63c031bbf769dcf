import LoxLang.Proofs.Notation.Words

/-!
# Trees as texts in parentheses

What the printer makes of a tree is the text of words, quoted texts and lists.

* **`Expr.text_eq`**, **`Stmt.text_eq`** — the text of a tree is that of its lists, and there is no fault.
* **`Expr.sexp_moved`**, **`Stmt.sexp_moved`** — the lines of the tokens are not shown.
* **`Expr.sexp_proper`**, **`Stmt.sexp_proper`** — the words and quoted texts of a tree of plain tokens are proper.
-/

namespace LoxLang

variable {ρ : Type} {P : Token → Prop}

/-! ## Lists of trees

The shape of what is printed, before it becomes a text. -/

/-- A literal: a quoted text or a word. -/
def Literal.sexp : Literal → Sexp
  | .string s => .quoted s
  | l => .word l.source

/-- An expression: a word, a quoted text, or a list that a word begins. -/
def Expr.sexp : Expr ρ → Sexp
  | .assign target value => .list [.word "=", .word target.name.lexeme, value.sexp]
  | .binary left operator right
  | .logical left operator right => .list [.word operator.lexeme, left.sexp, right.sexp]
  | .call callee _ arguments => .list (.word "call" :: callee.sexp :: all arguments)
  | .get object name => .list [.word ".", .word name.lexeme, object.sexp]
  | .grouping inner => .list [.word "group", inner.sexp]
  | .literal value => value.sexp
  | .set object name value => .list [.word "=", .word ".", .word name.lexeme, object.sexp, value.sexp]
  | .super _ method => .list [.word "super", .word method.lexeme]
  | .this _ => .word "this"
  | .unary operator right => .list [.word operator.lexeme, right.sexp]
  | .variable reference => .word reference.name.lexeme
  | .unknown => .list []
where
  all : List (Expr ρ) → List Sexp
    | [] => []
    | e :: es => e.sexp :: all es

mutual

/-- A statement: a list that a word begins. -/
def Stmt.sexp : Stmt ρ → Sexp
  | .block body => .list (.word "block" :: Stmt.sexps body)
  | .expression value => .list [.word ";", value.sexp]
  | .function declaration => declaration.sexp
  | .class name superclass methods =>
    .list (.word "class" :: .word name.lexeme ::
      (superclass.elim [] (fun r => [.word "<", .word r.name.lexeme]) ++ FunDecl.sexps methods))
  | .if condition thenBranch elseBranch =>
    .list (.word "if" :: condition.sexp :: thenBranch.sexp ::
      match elseBranch with
      | some s => [s.sexp]
      | none => [])
  | .print value => .list [.word "print", value.sexp]
  | .return _ value => .list (.word "return" :: value.elim [] fun e => [e.sexp])
  | .var name initializer => .list (.word "var" :: .word name.lexeme :: initializer.elim [] fun e => [e.sexp])
  | .while condition body => .list [.word "while", condition.sexp, body.sexp]
  | .unknown => .list []

/-- Statements, each a list. -/
def Stmt.sexps : List (Stmt ρ) → List Sexp
  | [] => []
  | s :: ss => s.sexp :: Stmt.sexps ss

/-- A function: its name, the list of its parameters, and its body. -/
def FunDecl.sexp : FunDecl ρ → Sexp
  | ⟨name, params, body⟩ =>
    .list (.word "fun" :: .word name.lexeme :: .list (params.map (.word ·.lexeme)) :: Stmt.sexps body)

/-- Functions, each a list. -/
def FunDecl.sexps : List (FunDecl ρ) → List Sexp
  | [] => []
  | d :: ds => d.sexp :: FunDecl.sexps ds

end

/-! ## Their texts

The printer writes the text of that shape. Only a node of no known form has none. -/

theorem Literal.text_sexp (l : Literal) : l.sexp.text = l.source := by
  cases l <;> rfl

theorem Sexp.texts_words (ts : List Token) : Sexp.texts (ts.map (.word ·.lexeme)) = ts.map (·.lexeme) := by
  induction ts with
  | nil => rfl
  | cons t ts ih => exact congrArg (t.lexeme :: ·) ih

theorem Sexp.texts_append (ps qs : List Sexp) : Sexp.texts (ps ++ qs) = Sexp.texts ps ++ Sexp.texts qs := by
  induction ps with
  | nil => rfl
  | cons p ps ih => exact congrArg (p.text :: ·) ih

mutual

/-- The text of an expression is that of its words and lists. -/
theorem Expr.text_eq {e : Expr ρ} (h : e.Drawn P) : e.text = .ok e.sexp.text := by
  -- each case unfolds one form and puts in the texts of the parts
  cases e with
  | assign target value =>
    rw [Expr.text, Expr.text_eq h.2]
    rfl
  | binary left operator right =>
    rw [Expr.text, Expr.text_eq h.1, Expr.text_eq h.2.2]
    rfl
  | call callee paren arguments =>
    rw [Expr.text, Expr.text_eq h.1, Expr.texts_eq h.2.2]
    rfl
  | get object name =>
    rw [Expr.text, Expr.text_eq h.1]
    rfl
  | grouping inner =>
    rw [Expr.text, Expr.text_eq (e := inner) h]
    rfl
  | literal value => exact congrArg Except.ok value.text_sexp.symm
  | logical left operator right =>
    rw [Expr.text, Expr.text_eq h.1, Expr.text_eq h.2.2]
    rfl
  | set object name value =>
    rw [Expr.text, Expr.text_eq h.1, Expr.text_eq h.2.2]
    rfl
  | unary operator right =>
    rw [Expr.text, Expr.text_eq h.2]
    rfl
  | super | this | «variable» => rfl
  | unknown => exact h.elim

theorem Expr.texts_eq {es : List (Expr ρ)} (h : Expr.Drawn.all P es) :
    Expr.text.texts es = .ok (Sexp.texts (Expr.sexp.all es)) := by
  cases es with
  | nil => rfl
  | cons e es =>
    rw [Expr.text.texts, Expr.text_eq h.1, Expr.texts_eq h.2]
    rfl

end

theorem Expr.optionText_eq {e? : Option (Expr ρ)} (h : ∀ e ∈ e?, e.Drawn P) :
    Expr.optionText e? = .ok (Sexp.texts (e?.elim [] fun e => [e.sexp])) := by
  cases e? with
  | none => rfl
  | some e =>
    rw [Expr.optionText, Expr.text_eq (h e rfl)]
    rfl

mutual

/-- The text of a statement is that of its words and lists. -/
theorem Stmt.text_eq {s : Stmt ρ} (h : s.Drawn P) : s.text = .ok s.sexp.text := by
  -- in each form the parts are printed first, and the rest is the text of the list by definition
  cases s with
  | block body =>
    have hbody : Stmt.AllDrawn P body := h
    rw [Stmt.text, Stmt.texts_eq hbody]
    rfl
  | expression value =>
    rw [Stmt.text, Expr.text_eq (e := value) h]
    rfl
  | function declaration => exact FunDecl.text_eq (d := declaration) h
  | «class» name superclass methods =>
    rw [Stmt.text, FunDecl.texts_eq h.2.2, Stmt.sexp, Sexp.text, Sexp.texts, Sexp.texts, Sexp.texts_append]
    cases superclass <;> rfl
  | «if» condition thenBranch elseBranch =>
    obtain ⟨hcondition, hthen, helse⟩ := Stmt.drawn_if.mp h
    cases elseBranch with
    | none =>
      rw [Stmt.text, Expr.text_eq hcondition, Stmt.text_eq hthen]
      rfl
    | some s =>
      rw [Stmt.text, Expr.text_eq hcondition, Stmt.text_eq hthen]
      simp only [Stmt.text_eq (helse s rfl)]
      rfl
  | print value =>
    rw [Stmt.text, Expr.text_eq (e := value) h]
    rfl
  | «return» keyword value =>
    rw [Stmt.text, Expr.optionText_eq h.2]
    rfl
  | var name initializer =>
    rw [Stmt.text, Expr.optionText_eq h.2]
    rfl
  | «while» condition body =>
    rw [Stmt.text, Expr.text_eq h.1, Stmt.text_eq h.2]
    rfl
  | unknown => exact h.elim

theorem Stmt.texts_eq {ss : List (Stmt ρ)} (h : Stmt.AllDrawn P ss) :
    Stmt.texts ss = .ok (Sexp.texts (Stmt.sexps ss)) := by
  cases ss with
  | nil => rfl
  | cons s ss =>
    rw [Stmt.texts, Stmt.text_eq h.1, Stmt.texts_eq h.2]
    rfl

theorem FunDecl.text_eq {d : FunDecl ρ} (h : d.Drawn P) : d.text = .ok d.sexp.text := by
  obtain ⟨name, params, body⟩ := d
  rw [FunDecl.text, Stmt.texts_eq h.2.2, FunDecl.sexp, Sexp.text, Sexp.texts, Sexp.texts, Sexp.texts, Sexp.text,
    Sexp.text, Sexp.text, Sexp.texts_words]
  rfl

theorem FunDecl.texts_eq {ds : List (FunDecl ρ)} (h : FunDecl.AllDrawn P ds) :
    FunDecl.texts ds = .ok (Sexp.texts (FunDecl.sexps ds)) := by
  cases ds with
  | nil => rfl
  | cons d ds =>
    rw [FunDecl.texts, FunDecl.text_eq h.1, FunDecl.texts_eq h.2]
    rfl

end

/-- The statements of a program are printed one below the other. -/
theorem programText_eq {program : List (Stmt ρ)} (h : Stmt.AllDrawn P program) :
    programText program = .ok ("\n".intercalate (Sexp.texts (Stmt.sexps program))) := by
  rw [programText, Stmt.texts_eq h]
  rfl

/-! ## Lines

Nothing is shown of the line of a token. -/

section Lines

variable (L : Lines)

mutual

theorem Expr.sexp_moved (e : Expr ρ) : (e.moved L).sexp = e.sexp := by
  cases e with
  | assign target value => simp [Expr.moved, Expr.sexp, Expr.sexp_moved value]
  | binary left operator right
  | logical left operator right =>
    simp [Expr.moved, Expr.sexp, Expr.sexp_moved left, Expr.sexp_moved right]
  | call callee paren arguments =>
    simp [Expr.moved, Expr.sexp, Expr.sexp_moved callee, Expr.sexps_moved arguments]
  | get object name => simp [Expr.moved, Expr.sexp, Expr.sexp_moved object]
  | grouping inner => simp [Expr.moved, Expr.sexp, Expr.sexp_moved inner]
  | set object name value => simp [Expr.moved, Expr.sexp, Expr.sexp_moved object, Expr.sexp_moved value]
  | unary operator right => simp [Expr.moved, Expr.sexp, Expr.sexp_moved right]
  | literal | super | this | «variable» | unknown => rfl

theorem Expr.sexps_moved (es : List (Expr ρ)) : Expr.sexp.all (Expr.moved.all L es) = Expr.sexp.all es := by
  cases es with
  | nil => rfl
  | cons e es => exact congrArg₂ List.cons (Expr.sexp_moved e) (Expr.sexps_moved es)

end

mutual

theorem Stmt.sexp_moved (s : Stmt ρ) : (s.moved L).sexp = s.sexp := by
  cases s with
  | block body => simp [Stmt.moved, Stmt.sexp, Stmt.sexps_moved body]
  | expression value => simp [Stmt.moved, Stmt.sexp, Expr.sexp_moved]
  | function declaration => exact FunDecl.sexp_moved declaration
  | «class» name superclass methods =>
    cases superclass <;> simp [Stmt.moved, Stmt.sexp, FunDecl.sexps_moved methods]
  | «if» condition thenBranch elseBranch =>
    cases elseBranch with
    | none => simp [Stmt.moved, Stmt.sexp, Expr.sexp_moved, Stmt.sexp_moved thenBranch]
    | some s => simp [Stmt.moved, Stmt.sexp, Expr.sexp_moved, Stmt.sexp_moved thenBranch, Stmt.sexp_moved s]
  | print value => simp [Stmt.moved, Stmt.sexp, Expr.sexp_moved]
  | «return» keyword value => cases value <;> simp [Stmt.moved, Stmt.sexp, Expr.sexp_moved]
  | var name initializer => cases initializer <;> simp [Stmt.moved, Stmt.sexp, Expr.sexp_moved]
  | «while» condition body => simp [Stmt.moved, Stmt.sexp, Expr.sexp_moved, Stmt.sexp_moved body]
  | unknown => rfl

theorem Stmt.sexps_moved (ss : List (Stmt ρ)) : Stmt.sexps (Stmt.movedAll L ss) = Stmt.sexps ss := by
  cases ss with
  | nil => rfl
  | cons s ss => exact congrArg₂ List.cons (Stmt.sexp_moved s) (Stmt.sexps_moved ss)

theorem FunDecl.sexp_moved (d : FunDecl ρ) : (d.moved L).sexp = d.sexp := by
  obtain ⟨name, params, body⟩ := d
  simp [FunDecl.moved, FunDecl.sexp, Stmt.sexps_moved body]

theorem FunDecl.sexps_moved (ds : List (FunDecl ρ)) : FunDecl.sexps (FunDecl.movedAll L ds) = FunDecl.sexps ds := by
  cases ds with
  | nil => rfl
  | cons d ds => exact congrArg₂ List.cons (FunDecl.sexp_moved d) (FunDecl.sexps_moved ds)

end

end Lines

/-! ## Plain trees

In a tree that was read from a text, words are lexemes, and lexemes have none of the characters that end a word. -/

/-- A plain literal is a word or a quoted text without a quote. -/
theorem Literal.Plain.sexp_proper {l : Literal} (h : l.Plain) : l.sexp.Proper := by
  cases h with
  | nil => exact rfl
  | bool b => cases b <;> exact rfl
  | number hx => exact hx.word.1
  | string hs => exact hs

/-- Parameters are words. -/
theorem Sexp.allProper_words {ts : List Token} (h : ∀ t ∈ ts, t.Is Token.Plain .identifier) :
    Sexp.AllProper (ts.map (.word ·.lexeme)) := by
  induction ts with
  | nil => trivial
  | cons t ts ih =>
    obtain ⟨ht, hts⟩ := List.forall_mem_cons.mp h
    exact ⟨ht.word, ih hts⟩

theorem Sexp.AllProper.append {ps qs : List Sexp} (hps : Sexp.AllProper ps) (hqs : Sexp.AllProper qs) :
    Sexp.AllProper (ps ++ qs) := by
  induction ps with
  | nil => exact hqs
  | cons p ps ih => exact ⟨hps.1, ih hps.2⟩

mutual

/-- The words and quoted texts of an expression are proper. -/
theorem Expr.sexp_proper {e : Expr ρ} (h : e.Drawn Token.Plain) : e.sexp.Proper := by
  -- operators and names are words of their own; the first word of each list is fixed
  cases e with
  | assign target value => exact ⟨rfl, h.1.word, Expr.sexp_proper h.2, trivial⟩
  | binary left operator right =>
    exact ⟨h.2.1.word operators_binary, Expr.sexp_proper h.1, Expr.sexp_proper h.2.2, trivial⟩
  | call callee paren arguments =>
    exact ⟨rfl, Expr.sexp_proper h.1, Expr.sexps_proper h.2.2⟩
  | get object name => exact ⟨rfl, h.2.word, Expr.sexp_proper h.1, trivial⟩
  | grouping inner => exact ⟨rfl, Expr.sexp_proper (e := inner) h, trivial⟩
  | literal value => exact (Literal.Drawn.plain h).sexp_proper
  | logical left operator right =>
    exact ⟨h.2.1.word operators_logical, Expr.sexp_proper h.1, Expr.sexp_proper h.2.2, trivial⟩
  | set object name value =>
    exact ⟨rfl, rfl, h.2.1.word, Expr.sexp_proper h.1,
      Expr.sexp_proper h.2.2, trivial⟩
  | super keyword method => exact ⟨rfl, h.2.word, trivial⟩
  | this keyword => exact rfl
  | unary operator right => exact ⟨h.1.word operators_unary, Expr.sexp_proper h.2, trivial⟩
  | «variable» reference => exact Token.Is.word h
  | unknown => exact h.elim

theorem Expr.sexps_proper {es : List (Expr ρ)} (h : Expr.Drawn.all Token.Plain es) :
    Sexp.AllProper (Expr.sexp.all es) := by
  cases es with
  | nil => trivial
  | cons e es => exact ⟨Expr.sexp_proper h.1, Expr.sexps_proper h.2⟩

end

/-- So is an expression that may be missing. -/
theorem Expr.optionSexp_proper {e? : Option (Expr ρ)} (h : ∀ e ∈ e?, e.Drawn Token.Plain) :
    Sexp.AllProper (e?.elim [] fun e => [e.sexp]) := by
  cases e? with
  | none => trivial
  | some e => exact ⟨Expr.sexp_proper (h e rfl), trivial⟩

mutual

/-- The words and quoted texts of a statement are proper. -/
theorem Stmt.sexp_proper {s : Stmt ρ} (h : s.Drawn Token.Plain) : s.sexp.Proper := by
  -- keywords are fixed and names are words; what is missing is not shown
  cases s with
  | block body =>
    have hbody : Stmt.AllDrawn Token.Plain body := h
    exact ⟨rfl, Stmt.sexps_proper hbody⟩
  | expression value => exact ⟨rfl, Expr.sexp_proper (e := value) h, trivial⟩
  | function declaration => exact FunDecl.sexp_proper (d := declaration) h
  | «class» name superclass methods =>
    refine ⟨rfl, h.1.word, .append ?_ (FunDecl.sexps_proper h.2.2)⟩
    cases superclass with
    | none => trivial
    | some r => exact ⟨rfl, (h.2.1 r rfl).word, trivial⟩
  | «if» condition thenBranch elseBranch =>
    obtain ⟨hcondition, hthen, helse⟩ := Stmt.drawn_if.mp h
    cases elseBranch with
    | none => exact ⟨rfl, Expr.sexp_proper hcondition, Stmt.sexp_proper hthen, trivial⟩
    | some s =>
      exact ⟨rfl, Expr.sexp_proper hcondition, Stmt.sexp_proper hthen,
        Stmt.sexp_proper (helse s rfl), trivial⟩
  | print value => exact ⟨rfl, Expr.sexp_proper (e := value) h, trivial⟩
  | «return» keyword value => exact ⟨rfl, Expr.optionSexp_proper h.2⟩
  | var name initializer => exact ⟨rfl, h.1.word, Expr.optionSexp_proper h.2⟩
  | «while» condition body =>
    exact ⟨rfl, Expr.sexp_proper h.1, Stmt.sexp_proper h.2, trivial⟩
  | unknown => exact h.elim

theorem Stmt.sexps_proper {ss : List (Stmt ρ)} (h : Stmt.AllDrawn Token.Plain ss) :
    Sexp.AllProper (Stmt.sexps ss) := by
  cases ss with
  | nil => trivial
  | cons s ss => exact ⟨Stmt.sexp_proper h.1, Stmt.sexps_proper h.2⟩

theorem FunDecl.sexp_proper {d : FunDecl ρ} (h : d.Drawn Token.Plain) : d.sexp.Proper := by
  obtain ⟨name, params, body⟩ := d
  exact ⟨rfl, h.1.word, Sexp.allProper_words h.2.1, Stmt.sexps_proper h.2.2⟩

theorem FunDecl.sexps_proper {ds : List (FunDecl ρ)} (h : FunDecl.AllDrawn Token.Plain ds) :
    Sexp.AllProper (FunDecl.sexps ds) := by
  cases ds with
  | nil => trivial
  | cons d ds => exact ⟨FunDecl.sexp_proper h.1, FunDecl.sexps_proper h.2⟩

end

end LoxLang
