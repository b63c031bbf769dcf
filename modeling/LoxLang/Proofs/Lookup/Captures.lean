import LoxLang.Proofs.Scope.Walks

/-!
# Captured names

A function that is declared in a scope may be called when the scope has declared more names than it had when the
function was written. Here it is said of the text alone which names a function takes from the scopes around it.

* **`Stmt.Captures`** — a function inside a statement refers to a name that no scope inside the statement binds.
* **`CaptureStable`** — no local scope declares a name behind a statement that captures it, and no initializer of a
  local variable assigns to that variable.

A scope binds a reference if it declares the name before it.
-/

namespace LoxLang

variable {ρ σ : Type}

/-- The names that statements add to the scope they stand in. -/
def Stmt.declaredAll : List (Stmt ρ) → List String
  | [] => []
  | s :: ss => s.declared ++ Stmt.declaredAll ss

/-! ## References

Which names a piece of program refers to that it does not bind itself. A name counts as bound by a scope from its
declaration on. -/

/-- An expression refers to the name. -/
def Expr.Refers (x : String) : Expr ρ → Prop
  | .assign target value => target.name.lexeme = x ∨ value.Refers x
  | .binary left _ right | .logical left _ right => left.Refers x ∨ right.Refers x
  | .call callee _ arguments => callee.Refers x ∨ any arguments
  | .get object _ => object.Refers x
  | .grouping inner => inner.Refers x
  | .set object _ value => object.Refers x ∨ value.Refers x
  | .this keyword => keyword.name.lexeme = x
  | .unary _ right => right.Refers x
  | .variable reference => reference.name.lexeme = x
  | .literal _ | .super _ _ | .unknown => False
where
  any : List (Expr ρ) → Prop
    | [] => False
    | e :: es => e.Refers x ∨ any es

/-- An expression that may be missing. -/
def Expr.OptionRefers (x : String) : Option (Expr ρ) → Prop
  | some e => e.Refers x
  | none => False

/-- The names of the scopes around the methods of a class. -/
def classNames (superclass : Option (Reference ρ)) : List String :=
  match superclass with
  | some _ => ["this", "super"]
  | none => ["this"]

mutual

/-- A statement has a reference to the name that no scope inside the statement binds. -/
def Stmt.Refers (x : String) : Stmt ρ → Prop
  | .block body => Stmt.RefersAll x body
  | .expression value | .print value => value.Refers x
  -- a function sees its own name, and so does a class
  | .function declaration => x ≠ declaration.name.lexeme ∧ declaration.Refers x
  | .class name superclass methods =>
    (match superclass with
      | some r => r.name.lexeme = x
      | none => False) ∨
      x ≠ name.lexeme ∧ x ∉ classNames superclass ∧ FunDecl.AnyRefers x methods
  | .if condition thenBranch elseBranch =>
    condition.Refers x ∨ thenBranch.Refers x ∨
      (match elseBranch with
        | some s => s.Refers x
        | none => False)
  | .return _ value => Expr.OptionRefers x value
  | .var _ initializer => Expr.OptionRefers x initializer
  | .while condition body => condition.Refers x ∨ body.Refers x
  | .unknown => False

/-- Statements of a scope have a reference to the name that neither the scope nor one inside of it binds. -/
def Stmt.RefersAll (x : String) : List (Stmt ρ) → Prop
  | [] => False
  -- a declaration binds what stands behind it only
  | s :: ss => s.Refers x ∨ x ∉ s.declared ∧ Stmt.RefersAll x ss

/-- The body of a function has such a reference, which is not to a parameter. -/
def FunDecl.Refers (x : String) : FunDecl ρ → Prop
  | ⟨_, params, body⟩ => x ∉ params.map (·.lexeme) ∧ Stmt.RefersAll x body

def FunDecl.AnyRefers (x : String) : List (FunDecl ρ) → Prop
  | [] => False
  | d :: ds => d.Refers x ∨ FunDecl.AnyRefers x ds

end

/-! ## Captures

A function captures the names that its body refers to and that neither it nor a scope between it and the statement
binds. -/

mutual

/-- A function or method inside a statement refers to the name, and no scope inside the statement binds the
reference. -/
def Stmt.Captures (x : String) : Stmt ρ → Prop
  | .block body => Stmt.CapturesAll x body
  -- the name of the function belongs to the scope around the statement, and does not count here
  | .function declaration => declaration.Refers x
  | .class _ superclass methods => x ∉ classNames superclass ∧ FunDecl.AnyRefers x methods
  | .if _ thenBranch elseBranch =>
    thenBranch.Captures x ∨
      (match elseBranch with
        | some s => s.Captures x
        | none => False)
  | .while _ body => body.Captures x
  | .expression _ | .print _ | .return _ _ | .var _ _ | .unknown => False

/-- Statements of a scope capture the name, and the scope does not bind it. -/
def Stmt.CapturesAll (x : String) : List (Stmt ρ) → Prop
  | [] => False
  | s :: ss => x ∉ s.declared ∧ (s.Captures x ∨ Stmt.CapturesAll x ss)

end

/-! ## Stability

Stability is asked of every scope of a program, in functions and methods too. -/

mutual

/-- No local scope inside a statement declares a name that a function of the scope has captured before. -/
def Stmt.Stable : Stmt ρ → Prop
  | .block body => Stmt.ScopeStable body
  | .function declaration => declaration.Stable
  | .class _ _ methods => FunDecl.AllStable methods
  | .if _ thenBranch elseBranch =>
    thenBranch.Stable ∧
      (match elseBranch with
        | some s => s.Stable
        | none => True)
  | .while _ body => body.Stable
  | .expression _ | .print _ | .return _ _ | .var _ _ | .unknown => True

/-- The statements of a local scope. -/
def Stmt.ScopeStable : List (Stmt ρ) → Prop
  | [] => True
  | s :: ss => s.Stable ∧ (∀ x ∈ Stmt.declaredAll ss, ¬ s.Captures x) ∧ Stmt.ScopeStable ss

def FunDecl.Stable : FunDecl ρ → Prop
  | ⟨_, _, body⟩ => Stmt.ScopeStable body

def FunDecl.AllStable : List (FunDecl ρ) → Prop
  | [] => True
  | d :: ds => d.Stable ∧ FunDecl.AllStable ds

end

/-- A program in which no local scope declares a name behind a function that has captured it, and no initializer of a
local variable assigns to that variable. -/
structure CaptureStable (program : List (Stmt ρ)) : Prop where
  stable : ∀ s ∈ program, s.Stable
  noSelfAssignments : Stmt.NoSelfAssignments false program

/-! ## Captured names are referred to

What a function in a statement captures is referred to by the statement. -/

mutual

/-- What a function inside a statement captures is referred to in the statement, unless the statement declares it. -/
theorem Stmt.Captures.refers {x : String} {s : Stmt ρ} (h : s.Captures x) (hx : x ∉ s.declared) : s.Refers x := by
  cases s with
  | block body => exact Stmt.CapturesAll.refersAll h
  | function declaration => exact ⟨fun heq => hx (List.mem_singleton.mpr heq), h⟩
  | «class» name superclass methods => exact .inr ⟨fun heq => hx (List.mem_singleton.mpr heq), h⟩
  | «if» condition thenBranch elseBranch =>
    cases elseBranch with
    | none =>
      have hthen : x ∉ thenBranch.declared := hx
      exact .inr (h.imp_left fun h => Stmt.Captures.refers h hthen)
    | some s =>
      obtain ⟨helse, hthen⟩ := not_or.mp (mt List.mem_append.mpr hx)
      exact .inr (h.imp (fun h => Stmt.Captures.refers h hthen) fun h => Stmt.Captures.refers h helse)
  | «while» condition body => exact .inr (Stmt.Captures.refers h hx)
  | expression | print | «return» | var | unknown => exact h.elim

/-- One of the statements captures the name, and no earlier one declares it. -/
theorem Stmt.CapturesAll.refersAll {x : String} {ss : List (Stmt ρ)} (h : Stmt.CapturesAll x ss) :
    Stmt.RefersAll x ss := by
  cases ss with
  | nil => exact h
  | cons s ss =>
    obtain ⟨hx, hs | hss⟩ := h
    · -- the scope has not bound the name up to the statement, and neither does the statement
      exact .inl (Stmt.Captures.refers hs hx)
    · exact .inr ⟨hx, Stmt.CapturesAll.refersAll hss⟩

end

/-! ## Other notes

All of this is about names. So it may be asked of the source text, and used for what the resolver has made of it. -/

section

variable (f : ρ → σ) (x : String)

/-- The same names are declared. -/
theorem Stmt.declaredAll_mapAllNotes (ss : List (Stmt ρ)) :
    Stmt.declaredAll (Stmt.mapAllNotes f ss) = Stmt.declaredAll ss := by
  induction ss with
  | nil => rfl
  | cons s ss ih => exact congrArg₂ (· ++ ·) (Stmt.declared_mapNotes f s) ih

mutual

/-- Expressions refer to the same names. -/
theorem Expr.refers_mapNotes (e : Expr ρ) : (e.mapNotes f).Refers x = e.Refers x := by
  cases e with
  | assign target value => exact congrArg (target.name.lexeme = x ∨ ·) (Expr.refers_mapNotes value)
  | binary left operator right | logical left operator right =>
    exact congrArg₂ Or (Expr.refers_mapNotes left) (Expr.refers_mapNotes right)
  | call callee paren arguments =>
    exact congrArg₂ Or (Expr.refers_mapNotes callee) (Expr.anyRefers_mapNotes arguments)
  | get object name => exact Expr.refers_mapNotes object
  | grouping inner => exact Expr.refers_mapNotes inner
  | set object name value => exact congrArg₂ Or (Expr.refers_mapNotes object) (Expr.refers_mapNotes value)
  | unary operator right => exact Expr.refers_mapNotes right
  | literal | super | this | «variable» | unknown => rfl

theorem Expr.anyRefers_mapNotes (es : List (Expr ρ)) :
    Expr.Refers.any x (Expr.mapNotes.mapAll f es) = Expr.Refers.any x es := by
  cases es with
  | nil => rfl
  | cons e es => exact congrArg₂ Or (Expr.refers_mapNotes e) (Expr.anyRefers_mapNotes es)

end

theorem Expr.optionRefers_map (e? : Option (Expr ρ)) :
    Expr.OptionRefers x (e?.map (·.mapNotes f)) = Expr.OptionRefers x e? := by
  cases e? with
  | none => rfl
  | some e => exact Expr.refers_mapNotes f x e

mutual

/-- A statement refers to the same names whatever is noted at them. -/
theorem Stmt.refers_mapNotes (s : Stmt ρ) : (s.mapNotes f).Refers x = s.Refers x := by
  cases s with
  | block body => exact Stmt.refersAll_mapAllNotes body
  | expression value | print value => exact Expr.refers_mapNotes f x value
  | function declaration =>
    obtain ⟨name, params, body⟩ := declaration
    exact congrArg (x ≠ name.lexeme ∧ ·) (FunDecl.refers_mapNotes ⟨name, params, body⟩)
  -- the methods stand in the scope of `this`, and of `super` if there is a superclass
  | «class» name superclass methods =>
    have hmethods := FunDecl.anyRefers_mapAllNotes methods
    cases superclass with
    | none => exact congrArg (False ∨ x ≠ name.lexeme ∧ x ∉ ["this"] ∧ ·) hmethods
    | some r => exact congrArg (r.name.lexeme = x ∨ x ≠ name.lexeme ∧ x ∉ ["this", "super"] ∧ ·) hmethods
  | «if» condition thenBranch elseBranch =>
    have hcondition := Expr.refers_mapNotes f x condition
    have hthen := Stmt.refers_mapNotes thenBranch
    cases elseBranch with
    | none => exact congrArg₂ Or hcondition (congrArg (· ∨ False) hthen)
    | some s => exact congrArg₂ Or hcondition (congrArg₂ Or hthen (Stmt.refers_mapNotes s))
  | «return» keyword value => exact Expr.optionRefers_map f x value
  | var name initializer => exact Expr.optionRefers_map f x initializer
  | «while» condition body =>
    exact congrArg₂ Or (Expr.refers_mapNotes f x condition) (Stmt.refers_mapNotes body)
  | unknown => rfl

theorem Stmt.refersAll_mapAllNotes (ss : List (Stmt ρ)) :
    Stmt.RefersAll x (Stmt.mapAllNotes f ss) = Stmt.RefersAll x ss := by
  cases ss with
  | nil => rfl
  | cons s ss =>
    rw [Stmt.mapAllNotes, Stmt.RefersAll, Stmt.RefersAll, Stmt.refers_mapNotes s, Stmt.declared_mapNotes,
      Stmt.refersAll_mapAllNotes ss]

theorem FunDecl.refers_mapNotes (d : FunDecl ρ) : (d.mapNotes f).Refers x = d.Refers x := by
  obtain ⟨name, params, body⟩ := d
  exact congrArg (x ∉ params.map (·.lexeme) ∧ ·) (Stmt.refersAll_mapAllNotes body)

theorem FunDecl.anyRefers_mapAllNotes (ds : List (FunDecl ρ)) :
    FunDecl.AnyRefers x (FunDecl.mapAllNotes f ds) = FunDecl.AnyRefers x ds := by
  cases ds with
  | nil => rfl
  | cons d ds => exact congrArg₂ Or (FunDecl.refers_mapNotes d) (FunDecl.anyRefers_mapAllNotes ds)

end

mutual

/-- What a statement captures does not depend on the notes. -/
theorem Stmt.captures_mapNotes (s : Stmt ρ) : (s.mapNotes f).Captures x = s.Captures x := by
  cases s with
  | block body => exact Stmt.capturesAll_mapAllNotes body
  | function declaration => exact FunDecl.refers_mapNotes f x declaration
  | «class» name superclass methods =>
    have hmethods := FunDecl.anyRefers_mapAllNotes f x methods
    cases superclass with
    | none => exact congrArg (x ∉ ["this"] ∧ ·) hmethods
    | some r => exact congrArg (x ∉ ["this", "super"] ∧ ·) hmethods
  | «if» condition thenBranch elseBranch =>
    have hthen := Stmt.captures_mapNotes thenBranch
    cases elseBranch with
    | none => exact congrArg (· ∨ False) hthen
    | some s => exact congrArg₂ Or hthen (Stmt.captures_mapNotes s)
  | «while» condition body => exact Stmt.captures_mapNotes body
  | expression | print | «return» | var | unknown => rfl

/-- So they are in lists of statements. -/
theorem Stmt.capturesAll_mapAllNotes (ss : List (Stmt ρ)) :
    Stmt.CapturesAll x (Stmt.mapAllNotes f ss) = Stmt.CapturesAll x ss := by
  cases ss with
  | nil => rfl
  | cons s ss =>
    rw [Stmt.mapAllNotes, Stmt.CapturesAll, Stmt.CapturesAll, Stmt.captures_mapNotes s, Stmt.declared_mapNotes,
      Stmt.capturesAll_mapAllNotes ss]

end

end

section

variable (f : ρ → σ)

mutual

/-- A statement is as stable as it was. -/
theorem Stmt.stable_mapNotes (s : Stmt ρ) : (s.mapNotes f).Stable = s.Stable := by
  cases s with
  | block body => exact Stmt.scopeStable_mapAllNotes body
  | function declaration => exact FunDecl.stable_mapNotes declaration
  | «class» name superclass methods => exact FunDecl.allStable_mapAllNotes methods
  | «if» condition thenBranch elseBranch =>
    have hthen := Stmt.stable_mapNotes thenBranch
    cases elseBranch with
    | none => exact congrArg (· ∧ True) hthen
    | some s => exact congrArg₂ And hthen (Stmt.stable_mapNotes s)
  | «while» condition body => exact Stmt.stable_mapNotes body
  | expression | print | «return» | var | unknown => rfl

theorem Stmt.scopeStable_mapAllNotes (ss : List (Stmt ρ)) :
    Stmt.ScopeStable (Stmt.mapAllNotes f ss) = Stmt.ScopeStable ss := by
  cases ss with
  | nil => rfl
  | cons s ss =>
    rw [Stmt.mapAllNotes, Stmt.ScopeStable, Stmt.ScopeStable, Stmt.stable_mapNotes s, Stmt.declaredAll_mapAllNotes,
      Stmt.scopeStable_mapAllNotes ss]
    simp only [Stmt.captures_mapNotes]

theorem FunDecl.stable_mapNotes (d : FunDecl ρ) : (d.mapNotes f).Stable = d.Stable := by
  obtain ⟨name, params, body⟩ := d
  exact Stmt.scopeStable_mapAllNotes body

theorem FunDecl.allStable_mapAllNotes (ds : List (FunDecl ρ)) :
    FunDecl.AllStable (FunDecl.mapAllNotes f ds) = FunDecl.AllStable ds := by
  cases ds with
  | nil => rfl
  | cons d ds => exact congrArg₂ And (FunDecl.stable_mapNotes d) (FunDecl.allStable_mapAllNotes ds)

end

/-- Whether all statements are stable does not depend on their notes. -/
theorem Stmt.forall_stable_mapAllNotes (ss : List (Stmt ρ)) :
    (∀ s ∈ Stmt.mapAllNotes f ss, s.Stable) ↔ ∀ s ∈ ss, s.Stable := by
  induction ss with
  | nil => exact ⟨fun _ => List.forall_mem_nil _, fun _ => List.forall_mem_nil _⟩
  | cons s ss ih => rw [Stmt.mapAllNotes, List.forall_mem_cons, List.forall_mem_cons, Stmt.stable_mapNotes, ih]

end

end LoxLang
