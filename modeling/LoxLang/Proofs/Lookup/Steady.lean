import LoxLang.Proofs.Lookup.Captures

/-!
# Trees whose references are steady

A place in a program has three lists of names for each scope around it: those that the scope has declared before the
place, those that its frame may bind while the place is executed, and those that its frame will ever bind. The second
list is the first one for scopes of the same call, and the third one for scopes around the function.

* **`Stmt.Steady`** — each reference is as many scopes away from its name in the second lists as it is in the first.
* **`Stmt.steady_of_stable`** — where no declaration follows a capture, references are steady.
-/

namespace LoxLang

/-! ## The relation

By recursion on the tree. At a function the list of names that frames may bind now is replaced by the list of those that
they may ever bind, for it is not known when the function will be called. -/

/-- A reference notes the distance to its name, which is the same among the names that frames may bind. -/
structure Reference.Steady (S D : Scopes) (r : Reference Hops) : Prop where
  note : r.note = S.hops r.name.lexeme
  hops : S.hops r.name.lexeme = D.hops r.name.lexeme

/-- The references of an expression are steady. -/
def Expr.Steady (S D : Scopes) : Expr Hops → Prop
  | .assign target value => target.Steady S D ∧ value.Steady S D
  | .binary left _ right | .logical left _ right => left.Steady S D ∧ right.Steady S D
  | .call callee _ arguments => callee.Steady S D ∧ all arguments
  | .get object _ => object.Steady S D
  | .grouping inner => inner.Steady S D
  | .set object _ value => object.Steady S D ∧ value.Steady S D
  | .this keyword => keyword.Steady S D
  | .unary _ right => right.Steady S D
  | .variable reference => reference.Steady S D
  | .literal _ | .super _ _ | .unknown => True
where
  all : List (Expr Hops) → Prop
    | [] => True
    | e :: es => e.Steady S D ∧ all es

/-- An expression that may be missing. -/
def Expr.OptionSteady (S D : Scopes) : Option (Expr Hops) → Prop
  | some e => e.Steady S D
  | none => True

mutual

/-- The references of a statement are steady. -/
def Stmt.Steady (S D T : Scopes) : Stmt Hops → Prop
  -- the frame of a block is new, and will get what the block declares
  | .block body => Stmt.AllSteady ([] :: S) ([] :: D) (Stmt.declaredAll body :: T) body
  | .expression value | .print value => value.Steady S D
  -- when the function is called, the frames around it may bind more than they do now
  | .function declaration => declaration.Steady (S.declare [declaration.name.lexeme]) T
  | .class name superclass methods =>
    (match superclass with
      | none => FunDecl.AllSteady (["this"] :: S.declare [name.lexeme]) (["this"] :: T) methods
      | some r =>
        r.Steady S D ∧
          FunDecl.AllSteady (["this"] :: ["super"] :: S.declare [name.lexeme]) (["this"] :: ["super"] :: T) methods)
  | .if condition thenBranch elseBranch =>
    condition.Steady S D ∧ (thenBranch.declared = [] ∧ thenBranch.Steady S D T) ∧
      (match elseBranch with
        | some s => s.declared = [] ∧ s.Steady S D T
        | none => True)
  | .return _ value => Expr.OptionSteady S D value
  | .var _ initializer => Expr.OptionSteady S D initializer
  | .while condition body => condition.Steady S D ∧ body.declared = [] ∧ body.Steady S D T
  | .unknown => True

/-- Statements that follow one another. -/
def Stmt.AllSteady (S D T : Scopes) : List (Stmt Hops) → Prop
  | [] => True
  | s :: ss => s.Steady S D T ∧ Stmt.AllSteady (S.declare s.declared) (D.declare s.declared) T ss

/-- A function inside scopes whose frames may bind all that they will ever bind when it is called. -/
def FunDecl.Steady (S T : Scopes) : FunDecl Hops → Prop
  | ⟨_, params, body⟩ =>
    Stmt.AllSteady ((params.map (·.lexeme)).reverse :: S) ((params.map (·.lexeme)).reverse :: T)
      (((params.map (·.lexeme)).reverse ++ Stmt.declaredAll body) :: T) body

def FunDecl.AllSteady (S T : Scopes) : List (FunDecl Hops) → Prop
  | [] => True
  | d :: ds => d.Steady S T ∧ FunDecl.AllSteady S T ds

end

/-- The branches of a conditional declare nothing. -/
theorem Stmt.declared_if {S D T : Scopes} {condition : Expr Hops} {thenBranch : Stmt Hops}
    {elseBranch : Option (Stmt Hops)} (hsteady : (Stmt.if condition thenBranch elseBranch).Steady S D T) :
    (Stmt.if condition thenBranch elseBranch).declared = [] := by
  cases elseBranch with
  | none => exact hsteady.2.1.1
  | some s =>
    rw [Stmt.declared, hsteady.2.1.1, hsteady.2.2.1]
    rfl

/-! ## Distances in two lists

A name is as far away in one list of scopes as in another if they agree on which of the scopes before have it. -/

/-- Two lists of scopes are at the same distance of a name. -/
abbrev Scopes.Agree (S D : Scopes) (x : String) : Prop :=
  S.hops x = D.hops x

namespace Scopes

variable {S D : Scopes} {x : String} {names names' : List String}

/-- Both innermost scopes have the name. -/
theorem agree_cons_of_mem (h : x ∈ names) (h' : x ∈ names') : Agree (names :: S) (names' :: D) x := by
  show Scopes.hops (names :: S) x = Scopes.hops (names' :: D) x
  rw [hops_cons, hops_cons, if_pos h, if_pos h']

/-- Both have it, or the search goes on in both. -/
theorem Agree.cons (h : S.Agree D x) (hiff : x ∈ names ↔ x ∈ names') : Agree (names :: S) (names' :: D) x := by
  show Scopes.hops (names :: S) x = Scopes.hops (names' :: D) x
  have hrest : S.hops x = D.hops x := h
  rw [hops_cons, hops_cons, hrest]
  simp only [hiff]

end Scopes

/-! ## Expressions

A reference is steady if the lists agree on its name; so it is enough that they agree on the names that are referred to.
-/

mutual

/-- The references of an expression are steady if its names are at the same distance. -/
theorem Expr.steady_of_scoped {S D : Scopes} {pending : Option String} {e : Expr Hops}
    (hscoped : e.Scoped true S pending) (hagree : ∀ x, e.Refers x → S.Agree D x) : e.Steady S D := by
  cases e with
  | assign target value =>
    -- the note counts the variable of the initializer as declared, which is another one
    obtain ⟨hnote, -, hpending, hvalue⟩ := hscoped
    have hnot : target.name.lexeme ∉ pending.toList := by
      intro hmem
      exact hpending rfl (Option.mem_toList.mp hmem)
    rw [Scopes.hops_declare hnot] at hnote
    exact ⟨⟨hnote, hagree _ (.inl rfl)⟩, Expr.steady_of_scoped hvalue fun x hx => hagree x (.inr hx)⟩
  | binary left operator right =>
    obtain ⟨hleft, -, hright⟩ := hscoped
    exact ⟨Expr.steady_of_scoped hleft fun x hx => hagree x (.inl hx),
      Expr.steady_of_scoped hright fun x hx => hagree x (.inr hx)⟩
  | logical left operator right =>
    obtain ⟨hleft, hright⟩ := hscoped
    exact ⟨Expr.steady_of_scoped hleft fun x hx => hagree x (.inl hx),
      Expr.steady_of_scoped hright fun x hx => hagree x (.inr hx)⟩
  | call callee paren arguments =>
    obtain ⟨hcallee, harguments⟩ := hscoped
    exact ⟨Expr.steady_of_scoped hcallee fun x hx => hagree x (.inl hx),
      Expr.allSteady_of_scoped harguments fun x hx => hagree x (.inr hx)⟩
  | get object name => exact Expr.steady_of_scoped (e := object) hscoped hagree
  | grouping inner => exact Expr.steady_of_scoped (e := inner) hscoped hagree
  | set object name value =>
    obtain ⟨hobject, hvalue⟩ := hscoped
    exact ⟨Expr.steady_of_scoped hobject fun x hx => hagree x (.inl hx),
      Expr.steady_of_scoped hvalue fun x hx => hagree x (.inr hx)⟩
  | this keyword =>
    obtain ⟨hlexeme, n, hnote, hthis⟩ := hscoped
    rw [← hlexeme] at hthis
    exact ⟨hnote.trans hthis.symm, hagree _ rfl⟩
  | unary operator right => exact Expr.steady_of_scoped (e := right) hscoped.2 hagree
  | «variable» reference => exact ⟨hscoped, hagree _ rfl⟩
  | literal | super | unknown => trivial

theorem Expr.allSteady_of_scoped {S D : Scopes} {pending : Option String} {es : List (Expr Hops)}
    (hscoped : Expr.Scoped.all true S pending es) (hagree : ∀ x, Expr.Refers.any x es → S.Agree D x) :
    Expr.Steady.all S D es := by
  cases es with
  | nil => trivial
  | cons e es =>
    exact ⟨Expr.steady_of_scoped hscoped.1 fun x hx => hagree x (.inl hx),
      Expr.allSteady_of_scoped hscoped.2 fun x hx => hagree x (.inr hx)⟩

end

theorem Expr.optionSteady_of_scoped {S D : Scopes} {pending : Option String} {e? : Option (Expr Hops)}
    (hscoped : Expr.OptionScoped true S pending e?) (hagree : ∀ x, Expr.OptionRefers x e? → S.Agree D x) :
    Expr.OptionSteady S D e? := by
  cases e? with
  | none => trivial
  | some e => exact Expr.steady_of_scoped (e := e) hscoped hagree

/-! ## Statements

In a scope whose declarations follow no capture, what a function refers to is either declared already, or is not
declared in the scope at all. In both cases the lists agree on it. -/

mutual

/-- A stable statement is steady if the names that it refers to are at the same distance in what frames may bind, and
those that it captures in what frames will ever bind. -/
theorem Stmt.steady_of_stable {S D T : Scopes} {s : Stmt Hops} (hscoped : s.Scoped true S) (hstable : s.Stable)
    (hagree : ∀ x, s.Refers x → S.Agree D x) (hcaptures : ∀ x, s.Captures x → (S.declare s.declared).Agree T x) :
    s.Steady S D T := by
  cases s with
  | block body =>
    -- a block declares nothing in the scope around it
    have hsame : S.declare (Stmt.block body).declared = S := Scopes.declare_nil_right S
    rw [hsame] at hcaptures
    have htotal : ∀ x, x ∈ Stmt.declaredAll body ↔ x ∈ ([] : List String) ∨ x ∈ Stmt.declaredAll body := by simp
    exact Stmt.allSteady_of_stable hscoped hstable htotal (fun x _ hx => hagree x hx) fun x _ hx => hcaptures x hx
  | expression value | print value => exact Expr.steady_of_scoped (e := value) hscoped hagree
  | function declaration => exact FunDecl.steady_of_stable hscoped.2.2 hstable hcaptures
  | «class» name superclass methods =>
    cases superclass with
    | none =>
      apply FunDecl.allSteady_of_stable hscoped.2.2 hstable
      intro x hx
      by_cases hthis : x ∈ ["this"]
      · exact Scopes.agree_cons_of_mem hthis hthis
      · exact (hcaptures x ⟨hthis, hx⟩).cons Iff.rfl
    | some r =>
      obtain ⟨-, -, hnote, hmethods⟩ := hscoped
      refine ⟨⟨hnote, hagree _ (.inl rfl)⟩, FunDecl.allSteady_of_stable hmethods hstable fun x hx => ?_⟩
      by_cases hthis : x ∈ ["this"]
      · exact Scopes.agree_cons_of_mem hthis hthis
      apply Scopes.Agree.cons _ Iff.rfl
      by_cases hsuper : x ∈ ["super"]
      · exact Scopes.agree_cons_of_mem hsuper hsuper
      apply Scopes.Agree.cons _ Iff.rfl
      have hboth : x ∉ classNames (some r) := by
        show x ∉ ["this"] ++ ["super"]
        exact mt List.mem_append.mp (not_or.mpr ⟨hthis, hsuper⟩)
      exact hcaptures x ⟨hboth, hx⟩
  | «if» condition thenBranch elseBranch =>
    cases elseBranch with
    | none =>
      obtain ⟨hcondition, ⟨hdeclared, hthen⟩, -⟩ := hscoped
      have hcaptures' : ∀ x, thenBranch.Captures x → (S.declare thenBranch.declared).Agree T x :=
        fun x hx => hcaptures x (.inl hx)
      refine ⟨Expr.steady_of_scoped hcondition fun x hx => hagree x (.inl hx), ⟨hdeclared, ?_⟩, trivial⟩
      exact Stmt.steady_of_stable hthen hstable.1 (fun x hx => hagree x (.inr (.inl hx))) hcaptures'
    | some s =>
      obtain ⟨hcondition, ⟨hdeclared, hthen⟩, hdeclared', helse⟩ := hscoped
      rw [Stmt.declared, hdeclared, hdeclared'] at hcaptures
      refine ⟨Expr.steady_of_scoped hcondition fun x hx => hagree x (.inl hx), ⟨hdeclared, ?_⟩, hdeclared', ?_⟩
      · apply Stmt.steady_of_stable hthen hstable.1 fun x hx => hagree x (.inr (.inl hx))
        rw [hdeclared]
        exact fun x hx => hcaptures x (.inl hx)
      · apply Stmt.steady_of_stable helse hstable.2 fun x hx => hagree x (.inr (.inr hx))
        rw [hdeclared']
        exact fun x hx => hcaptures x (.inr hx)
  | «return» keyword value => exact Expr.optionSteady_of_scoped hscoped hagree
  | var name initializer => exact Expr.optionSteady_of_scoped hscoped.2.2 hagree
  | «while» condition body =>
    obtain ⟨hcondition, hdeclared, hbody⟩ := hscoped
    refine ⟨Expr.steady_of_scoped hcondition fun x hx => hagree x (.inl hx), hdeclared, ?_⟩
    exact Stmt.steady_of_stable hbody hstable (fun x hx => hagree x (.inr hx)) hcaptures
  | unknown => trivial

/-- The statements of a local scope that has declared some names before them. -/
theorem Stmt.allSteady_of_stable {S D T : Scopes} {before total : List String} {ss : List (Stmt Hops)}
    (hscoped : Stmt.AllScoped true (before :: S) ss) (hstable : Stmt.ScopeStable ss)
    (htotal : ∀ x, x ∈ total ↔ x ∈ before ∨ x ∈ Stmt.declaredAll ss)
    (hagree : ∀ x ∉ before, Stmt.RefersAll x ss → S.Agree D x)
    (hcaptures : ∀ x ∉ before, Stmt.CapturesAll x ss → S.Agree T x) :
    Stmt.AllSteady (before :: S) (before :: D) (total :: T) ss := by
  cases ss with
  | nil => trivial
  | cons s ss =>
    obtain ⟨hs, hss⟩ := hscoped
    obtain ⟨hsStable, hlater, hssStable⟩ := hstable
    constructor
    · -- the first statement sees the names before it, and those that it declares itself
      apply Stmt.steady_of_stable hs hsStable
      · intro x hx
        by_cases hbefore : x ∈ before
        · exact Scopes.agree_cons_of_mem hbefore hbefore
        · exact (hagree x hbefore (.inl hx)).cons Iff.rfl
      · intro x hx
        show Scopes.Agree ((s.declared ++ before) :: S) _ x
        by_cases hknown : x ∈ s.declared ++ before
        · apply Scopes.agree_cons_of_mem hknown
          apply (htotal x).mpr
          rcases List.mem_append.mp hknown with hown | hbefore
          · exact .inr (List.mem_append_left _ hown)
          · exact .inl hbefore
        · -- the scope will not declare the name, for the statement has captured it
          obtain ⟨hown, hbefore⟩ := not_or.mp (mt List.mem_append.mpr hknown)
          have hnever : x ∉ total := by
            intro hmem
            rcases (htotal x).mp hmem with hmem | hmem
            · exact hbefore hmem
            · rcases List.mem_append.mp hmem with hmem | hmem
              · exact hown hmem
              · exact hlater x hmem hx
          exact (hcaptures x hbefore ⟨hown, .inl hx⟩).cons (iff_of_false hknown hnever)
    · -- the others have its names before them
      apply Stmt.allSteady_of_stable hss hssStable
      · intro x
        rw [htotal, Stmt.declaredAll, List.mem_append, List.mem_append]
        tauto
      · intro x hx hrefers
        obtain ⟨hown, hbefore⟩ := not_or.mp (mt List.mem_append.mpr hx)
        exact hagree x hbefore (.inr ⟨hown, hrefers⟩)
      · intro x hx hcaptured
        obtain ⟨hown, hbefore⟩ := not_or.mp (mt List.mem_append.mpr hx)
        exact hcaptures x hbefore ⟨hown, .inr hcaptured⟩

/-- The body is in a scope of its own, where nothing has been declared but the parameters. -/
theorem FunDecl.steady_of_stable {S T : Scopes} {d : FunDecl Hops} (hscoped : d.Scoped true S) (hstable : d.Stable)
    (hagree : ∀ x, d.Refers x → S.Agree T x) : d.Steady S T := by
  obtain ⟨name, params, body⟩ := d
  have hparams : ∀ x, x ∉ (params.map (·.lexeme)).reverse → x ∉ params.map (·.lexeme) :=
    fun x hx hmem => hx (List.mem_reverse.mpr hmem)
  -- in a call the frames around the function count with all their names from the beginning
  apply Stmt.allSteady_of_stable hscoped.2.2 hstable fun x => List.mem_append
  · exact fun x hx hrefers => hagree x ⟨hparams x hx, hrefers⟩
  · exact fun x hx hcaptured => hagree x ⟨hparams x hx, hcaptured.refersAll⟩

theorem FunDecl.allSteady_of_stable {S T : Scopes} {ds : List (FunDecl Hops)}
    (hscoped : FunDecl.AllScoped true S ds) (hstable : FunDecl.AllStable ds)
    (hagree : ∀ x, FunDecl.AnyRefers x ds → S.Agree T x) : FunDecl.AllSteady S T ds := by
  cases ds with
  | nil => trivial
  | cons d ds =>
    exact ⟨FunDecl.steady_of_stable hscoped.1 hstable.1 fun x hx => hagree x (.inl hx),
      FunDecl.allSteady_of_stable hscoped.2 hstable.2 fun x hx => hagree x (.inr hx)⟩

end

/-- Outside of all scopes stable statements are steady. -/
theorem Stmt.allSteady_topLevel {ss : List (Stmt Hops)} (hscoped : Stmt.AllScoped true [] ss)
    (hstable : ∀ s ∈ ss, s.Stable) : Stmt.AllSteady [] [] [] ss := by
  induction ss with
  | nil => trivial
  | cons s ss ih =>
    obtain ⟨hs, hss⟩ := hscoped
    obtain ⟨hsStable, hssStable⟩ := List.forall_mem_cons.mp hstable
    exact ⟨Stmt.steady_of_stable hs hsStable (fun _ _ => rfl) fun _ _ => rfl, ih hss hssStable⟩

end LoxLang
