import LoxLang.Proofs.Parse.Grammar
import LoxLang.Proofs.Scope.Events

/-!
# References that cross

References are resolved in the order of a walk, which is not always the order of the text: the walk comes to an
assigned value before it comes to the target, to the value of a property before it comes to the object, and to the
body of a `for` statement before it comes to the increment. All other references are read as they are written.

* **`Stmt.Crosses`** — two names of which the one that is written first may be read last.
* **`Stmt.names_of_crosses`** — it is read last.
* **`Program.follows`** — names that do not cross are read in the order of their tokens.
-/

namespace LoxLang

variable {ρ : Type}

/-! ## Names

The names of a tree in the order in which they are resolved. -/

namespace Event

/-- The names that are referred to, in their order. -/
def names (es : List (Event ρ)) : List Token :=
  es.filterMap fun
    | .refer _ r => some r.name
    | _ => none

variable {es es' : List (Event ρ)}

@[simp] theorem names_nil : names ([] : List (Event ρ)) = [] := rfl

/-- The names of one and then those of the other. -/
@[simp] theorem names_append : names (es ++ es') = names es ++ names es' :=
  List.filterMap_append

@[simp] theorem names_declare {name : String} : names (.declare name :: es) = names es := rfl

@[simp] theorem names_refer {kind : ReferenceKind} {r : Reference ρ} :
    names (.refer kind r :: es) = r.name :: names es := rfl

/-- To open a scope is to refer to nothing. -/
@[simp] theorem names_scope : names (scope es) = names es := by
  rw [scope]
  show names (es ++ [.leave]) = _
  rw [names_append]
  exact List.append_nil _

@[simp] theorem names_params (ps : List Token) : names (ps.map (Event.declare (ρ := ρ) ·.lexeme)) = [] := by
  induction ps with
  | nil => rfl
  | cons p ps ih => exact ih

end Event

open Event
open scoped List

/-! ## Crossing

Two names cross if one is written before the other and read after it. There are three places in the grammar where this
may happen, and each has a case of its own here. -/

/-- `e.Crosses t u`: the name `t` is in the target of an assignment or in the object of a property that is set, and
`u` is in the value. -/
def Expr.Crosses (t u : Token) : Expr ρ → Prop
  | .assign target value => t = target.name ∧ u ∈ names value.events ∨ value.Crosses t u
  | .set object _ value =>
    t ∈ names object.events ∧ u ∈ names value.events ∨ object.Crosses t u ∨ value.Crosses t u
  | .binary left _ right | .logical left _ right => left.Crosses t u ∨ right.Crosses t u
  | .call callee _ arguments => callee.Crosses t u ∨ any arguments
  | .get object _ => object.Crosses t u
  | .grouping inner => inner.Crosses t u
  | .unary _ right => right.Crosses t u
  | .literal _ | .super .. | .this _ | .variable _ | .unknown => False
where
  any : List (Expr ρ) → Prop
    | [] => False
    | e :: es => e.Crosses t u ∨ any es

/-- An expression that may be missing. -/
def Expr.OptionCrosses (t u : Token) : Option (Expr ρ) → Prop
  | some e => e.Crosses t u
  | none => False

mutual

/-- `s.Crosses t u`: the names `t` and `u` cross in an expression, or `t` is in the increment of a loop and `u` is in
its body. In the tree of a `for` statement, these two make up a block. -/
def Stmt.Crosses (t u : Token) : Stmt ρ → Prop
  | .block body => Stmt.AnyCrosses t u body
  | .expression value | .print value => value.Crosses t u
  | .function declaration => declaration.Crosses t u
  | .class _ _ methods => FunDecl.AnyCrosses t u methods
  | .if condition thenBranch elseBranch =>
    condition.Crosses t u ∨ thenBranch.Crosses t u ∨
      (match elseBranch with
        | some s => s.Crosses t u
        | none => False)
  | .return _ value => Expr.OptionCrosses t u value
  | .var _ initializer => Expr.OptionCrosses t u initializer
  | .while condition body =>
    condition.Crosses t u ∨ body.Crosses t u ∨
      (match body with
        | .block [round, .expression increment] => t ∈ names increment.events ∧ u ∈ names round.events
        | _ => False)
  | .unknown => False

/-- One of the statements crosses the names. -/
def Stmt.AnyCrosses (t u : Token) : List (Stmt ρ) → Prop
  | [] => False
  | s :: ss => s.Crosses t u ∨ Stmt.AnyCrosses t u ss

/-- The body of a function crosses the names. -/
def FunDecl.Crosses (t u : Token) : FunDecl ρ → Prop
  | ⟨_, _, body⟩ => Stmt.AnyCrosses t u body

/-- One of the functions crosses the names. -/
def FunDecl.AnyCrosses (t u : Token) : List (FunDecl ρ) → Prop
  | [] => False
  | d :: ds => d.Crosses t u ∨ FunDecl.AnyCrosses t u ds

end

/-! ## The order of the walk

By the form of the tree: names that cross are in two parts of one node, and the walk takes these parts the other way
round. -/

section

variable {t u : Token}

/-- Two names of which one is read in each of two parts. -/
theorem pair_sublist_append {ts ts' : List Token} (hu : u ∈ ts) (ht : t ∈ ts') : [u, t] <+ ts ++ ts' :=
  (List.singleton_sublist.mpr hu).append (List.singleton_sublist.mpr ht)

mutual

/-- Of two names that cross in an expression, the first one is read last. -/
theorem Expr.names_of_crosses (e : Expr ρ) (h : e.Crosses t u) : [u, t] <+ names e.events := by
  -- the value of an assignment is visited before its target; elsewhere the parts are visited as they are written
  cases e with
  | assign target value =>
    rw [Expr.events, names_append]
    rcases h with ⟨rfl, hu⟩ | h
    · exact pair_sublist_append hu List.mem_cons_self
    · exact (Expr.names_of_crosses value h).trans (List.sublist_append_left _ _)
  | set object name value =>
    rw [Expr.events, names_append]
    rcases h with ⟨ht, hu⟩ | h | h
    · exact pair_sublist_append hu ht
    · exact (Expr.names_of_crosses object h).trans (List.sublist_append_right _ _)
    · exact (Expr.names_of_crosses value h).trans (List.sublist_append_left _ _)
  | binary left operator right | logical left operator right =>
    rw [Expr.events, names_append]
    rcases h with h | h
    · exact (Expr.names_of_crosses left h).trans (List.sublist_append_left _ _)
    · exact (Expr.names_of_crosses right h).trans (List.sublist_append_right _ _)
  | call callee paren arguments =>
    rw [Expr.events, names_append]
    rcases h with h | h
    · exact (Expr.names_of_crosses callee h).trans (List.sublist_append_left _ _)
    · exact (Expr.names_of_crosses_any arguments h).trans (List.sublist_append_right _ _)
  | get object name => exact Expr.names_of_crosses object h
  | grouping inner => exact Expr.names_of_crosses inner h
  | unary operator right => exact Expr.names_of_crosses right h
  | literal | super | this | «variable» | unknown => exact h.elim

theorem Expr.names_of_crosses_any (es : List (Expr ρ)) (h : Expr.Crosses.any t u es) :
    [u, t] <+ names (Expr.events.all es) := by
  cases es with
  | nil => exact h.elim
  | cons e es =>
    rw [Expr.events.all, names_append]
    rcases h with h | h
    · exact (Expr.names_of_crosses e h).trans (List.sublist_append_left _ _)
    · exact (Expr.names_of_crosses_any es h).trans (List.sublist_append_right _ _)

end

/-- In a part that may be missing. -/
theorem Expr.names_of_optionCrosses (e? : Option (Expr ρ)) (h : Expr.OptionCrosses t u e?) :
    [u, t] <+ names (Expr.optionEvents e?) := by
  cases e? with
  | none => exact h.elim
  | some e => exact e.names_of_crosses h

mutual

/-- Of two names that cross in a statement, the first one is read last. -/
theorem Stmt.names_of_crosses (s : Stmt ρ) (h : s.Crosses t u) : [u, t] <+ names s.events := by
  cases s with
  | block body =>
    rw [Stmt.events, names_scope]
    exact Stmt.names_of_anyCrosses body h
  | expression value | print value => exact value.names_of_crosses h
  | function declaration => exact FunDecl.names_of_crosses declaration h
  | «class» name superclass methods =>
    have hmethods := FunDecl.names_of_anyCrosses methods h
    cases superclass with
    | none => simpa [Stmt.events] using hmethods
    | some r => simpa [Stmt.events] using hmethods.cons r.name
  | «if» condition thenBranch elseBranch =>
    have hcondition := condition.names_of_crosses (t := t) (u := u)
    have hthen := Stmt.names_of_crosses thenBranch
    cases elseBranch with
    | none =>
      simp only [Stmt.events, List.append_nil, names_append]
      rcases h with h | h | h
      · exact (hcondition h).trans (List.sublist_append_left _ _)
      · exact (hthen h).trans (List.sublist_append_right _ _)
      · exact h.elim
    | some s =>
      simp only [Stmt.events, names_append]
      rcases h with h | h | h
      · exact (hcondition h).trans (List.sublist_append_left _ _)
      · exact ((hthen h).trans (List.sublist_append_left _ _)).trans (List.sublist_append_right _ _)
      · exact ((Stmt.names_of_crosses s h).trans (List.sublist_append_right _ _)).trans
          (List.sublist_append_right _ _)
  | «return» keyword value => exact Expr.names_of_optionCrosses value h
  | var name initializer => exact Expr.names_of_optionCrosses initializer h
  | «while» condition body =>
    rw [Stmt.events, names_append]
    rcases h with h | h | h
    · exact (condition.names_of_crosses h).trans (List.sublist_append_left _ _)
    · exact (Stmt.names_of_crosses body h).trans (List.sublist_append_right _ _)
    · split at h
      -- the increment of a loop is written before the body and visited behind it
      next round increment =>
        have hround : names (Stmt.block [round, .expression increment]).events
            = names round.events ++ names increment.events := by
          simp [Stmt.events, Stmt.eventsAll]
        rw [hround]
        exact (pair_sublist_append h.2 h.1).trans (List.sublist_append_right _ _)
      next => exact h.elim
  | unknown => exact h.elim

theorem Stmt.names_of_anyCrosses (ss : List (Stmt ρ)) (h : Stmt.AnyCrosses t u ss) :
    [u, t] <+ names (Stmt.eventsAll ss) := by
  cases ss with
  | nil => exact h.elim
  | cons s ss =>
    rw [Stmt.eventsAll, names_append]
    rcases h with h | h
    · exact (Stmt.names_of_crosses s h).trans (List.sublist_append_left _ _)
    · exact (Stmt.names_of_anyCrosses ss h).trans (List.sublist_append_right _ _)

theorem FunDecl.names_of_crosses (d : FunDecl ρ) (h : d.Crosses t u) : [u, t] <+ names d.events := by
  obtain ⟨name, params, body⟩ := d
  rw [FunDecl.events, names_scope, names_append, names_params]
  exact Stmt.names_of_anyCrosses body h

theorem FunDecl.names_of_anyCrosses (ds : List (FunDecl ρ)) (h : FunDecl.AnyCrosses t u ds) :
    [u, t] <+ names (FunDecl.eventsAll ds) := by
  cases ds with
  | nil => exact h.elim
  | cons d ds =>
    rw [FunDecl.eventsAll, names_append]
    rcases h with h | h
    · exact (FunDecl.names_of_crosses d h).trans (List.sublist_append_left _ _)
    · exact (FunDecl.names_of_anyCrosses ds h).trans (List.sublist_append_right _ _)

end

end

/-! ## The order of the text

By induction on the derivation, from which both orders can be seen: that of the tokens in the rule, and that of the
names in the tree. -/

/-- `Follows C w ts`: the names `ts`, which are among the tokens `w`, are read in the order of the tokens, but for
names that `C` relates to later ones. -/
structure Follows (C : Token → Token → Prop) (w ts : List Token) : Prop where
  subset : ts ⊆ w
  order : ts.Pairwise fun u t => [u, t] <+ w ∨ [t, u] <+ w ∧ C t u

namespace Follows

variable {C C₁ C₂ : Token → Token → Prop} {w w' w₁ w₂ ts ts₁ ts₂ : List Token}

/-- There is nothing to be out of order. -/
theorem nil : Follows C w [] :=
  ⟨List.nil_subset _, List.Pairwise.nil⟩

/-- Nor is there with one name. -/
theorem single {t : Token} (ht : t ∈ w) : Follows C w [t] :=
  ⟨List.cons_subset.mpr ⟨ht, List.nil_subset _⟩, List.pairwise_singleton _ _⟩

theorem wider (h : Follows C w ts) (hw : w <+ w') : Follows C w' ts where
  subset := List.Subset.trans h.subset hw.subset
  order := h.order.imp (Or.imp (·.trans hw) (And.imp_left (·.trans hw)))

theorem mono (h : Follows C₁ w ts) (hC : ∀ t u, C₁ t u → C t u) : Follows C w ts where
  subset := h.subset
  order := h.order.imp (Or.imp_right (And.imp_right (hC _ _)))

/-- Parts that are read as they are written. -/
theorem append (h₁ : Follows C₁ w₁ ts₁) (h₂ : Follows C₂ w₂ ts₂) (hC₁ : ∀ t u, C₁ t u → C t u)
    (hC₂ : ∀ t u, C₂ t u → C t u) : Follows C (w₁ ++ w₂) (ts₁ ++ ts₂) where
  subset := List.append_subset.mpr
    ⟨List.subset_append_of_subset_left _ h₁.subset, List.subset_append_of_subset_right _ h₂.subset⟩
  order := List.pairwise_append.mpr
    ⟨((h₁.mono hC₁).wider (List.sublist_append_left _ _)).order,
      ((h₂.mono hC₂).wider (List.sublist_append_right _ _)).order,
      fun _ hu _ ht => .inl (pair_sublist_append (h₁.subset hu) (h₂.subset ht))⟩

/-- Parts of which the first one is read last. -/
theorem swap (h₁ : Follows C₁ w₁ ts₁) (h₂ : Follows C₂ w₂ ts₂) (hC₁ : ∀ t u, C₁ t u → C t u)
    (hC₂ : ∀ t u, C₂ t u → C t u) (hC : ∀ t ∈ ts₁, ∀ u ∈ ts₂, C t u) : Follows C (w₁ ++ w₂) (ts₂ ++ ts₁) where
  subset := List.append_subset.mpr
    ⟨List.subset_append_of_subset_right _ h₂.subset, List.subset_append_of_subset_left _ h₁.subset⟩
  order := List.pairwise_append.mpr
    ⟨((h₂.mono hC₂).wider (List.sublist_append_right _ _)).order,
      ((h₁.mono hC₁).wider (List.sublist_append_left _ _)).order,
      fun u hu t ht => .inr ⟨pair_sublist_append (h₁.subset ht) (h₂.subset hu), hC t ht u hu⟩⟩

end Follows

/-- What the rules for expressions derive, as its names are read. Operators and suffixes go on from their left
operand. -/
def Phrase.InOrder : Phrase → List Token → Prop
  | .expr _ e, w => Follows (fun t u => e.Crosses t u) w (names e.events)
  | .operations _ left e, w | .suffixes left e, w =>
    ∀ v, Follows (fun t u => left.Crosses t u) v (names left.events) →
      Follows (fun t u => e.Crosses t u) (v ++ w) (names e.events)
  | .arguments es, w | .argumentList es, w =>
    Follows (fun t u => Expr.Crosses.any t u es) w (names (Expr.events.all es))

section

variable {d : Dialect} {w : List Token}

/-- Operands are resolved from left to right. -/
theorem Rank.names_node (r : Rank) (left right : SourceExpr) (operator : Token) :
    names (r.node left operator right).events = names left.events ++ names right.events := by
  cases r <;> exact names_append

/-- An operation crosses names within its operands only. -/
theorem Rank.crosses_node (r : Rank) (left right : SourceExpr) (operator : Token) (t u : Token) :
    (r.node left operator right).Crosses t u ↔ left.Crosses t u ∨ right.Crosses t u := by
  cases r <;> exact Iff.rfl

/-- By induction on the derivation, with one case for each rule. Only assignments read their names out of order. -/
theorem Phrase.Derives.inOrder (hd : d.anyTarget = false) {p : Phrase} (h : p.Derives d w) : p.InOrder w := by
  -- suffixes and operators are read with what stands before them, which is why their cases are functions
  induction h with
  | @assign name equals value w _ _ _ ih =>
    have hw : [name] ++ w <+ name :: equals :: w := (List.sublist_cons_self _ _).cons_cons _
    have hname : Follows (fun t u => (Expr.assign (.bare name) value).Crosses t u) [name] [name] :=
      .single List.mem_cons_self
    have hswap := hname.swap ih (fun _ _ => id) (fun _ _ => .inr)
      fun t ht u hu => .inl ⟨List.mem_singleton.mp ht, hu⟩
    rw [Phrase.InOrder, Expr.events, names_append]
    exact hswap.wider hw
  | @set object value dot name equals w₁ w₂ _ _ _ _ _ ihobject ihvalue =>
    have hw : w₂ <+ dot :: name :: equals :: w₂ := List.sublist_append_right [dot, name, equals] w₂
    rw [Phrase.InOrder, Expr.events, names_append]
    exact Follows.swap ihobject (ihvalue.wider hw) (fun _ _ h => .inr (.inl h)) (fun _ _ h => .inr (.inr h))
      fun t ht u hu => .inl ⟨ht, hu⟩
  | misplaced hany => exact absurd (hd.symm.trans hany) Bool.false_ne_true
  | disjunction _ ih => exact ih
  | joined _ _ ihleft ihmore => exact ihmore _ ihleft
  | noOperation => exact fun v hv => (List.append_nil v).symm ▸ hv
  | @operation r left right e operator w₁ w₂ _ _ _ ihright ihmore =>
    intro v hv
    have hnode : Follows (fun t u => (r.node left operator right).Crosses t u) (v ++ operator :: w₁)
        (names (r.node left operator right).events) := by
      rw [Rank.names_node]
      exact hv.append (ihright.wider (List.sublist_cons_self operator w₁))
        (fun _ _ h => (Rank.crosses_node ..).mpr (.inl h)) fun _ _ h => (Rank.crosses_node ..).mpr (.inr h)
    have hmore := ihmore _ hnode
    rwa [List.append_assoc, List.cons_append] at hmore
  | unary _ _ ih => exact ih.wider (List.sublist_cons_self _ _)
  | noUnary _ ih => exact ih
  | call _ _ ihtarget ihmore => exact ihmore _ ihtarget
  | noSuffix => exact fun v hv => (List.append_nil v).symm ▸ hv
  | @arguments callee e args open' paren w₁ w₂ _ _ _ _ _ ihargs ihmore =>
    intro v hv
    have hcall : Follows (fun t u => (Expr.call callee paren args).Crosses t u) (v ++ open' :: (w₁ ++ [paren]))
        (names (Expr.call callee paren args).events) := by
      rw [Expr.events, names_append]
      exact hv.append (ihargs.wider ((List.sublist_append_left w₁ [paren]).cons open')) (fun _ _ => .inl)
        fun _ _ => .inr
    have hmore := ihmore _ hcall
    rwa [List.append_assoc, List.cons_append, List.append_assoc] at hmore
  | @property object e dot name w _ _ _ ih =>
    intro v hv
    have hmore := ih (v ++ [dot, name]) (hv.wider (List.sublist_append_left _ _))
    rwa [List.append_assoc] at hmore
  | oneArgument _ ih =>
    rw [Phrase.InOrder, Expr.events.all, Expr.events.all, List.append_nil]
    exact ih.mono fun _ _ => .inl
  | moreArguments _ _ _ ih ihmore =>
    rw [Phrase.InOrder, Expr.events.all, names_append]
    exact Follows.append ih (ihmore.wider (List.sublist_cons_self _ _)) (fun _ _ => .inl) fun _ _ => .inr
  | noArguments => exact .nil
  | someArguments _ ih => exact ih
  | literalFalse | literalTrue | literalNil | literal => exact .nil
  | this | identifier => exact .single List.mem_cons_self
  | grouping _ _ _ ih => exact ih.wider ((List.sublist_append_left _ _).cons _)
  | super => exact .single List.mem_cons_self

theorem OptionalExpression.follows (hd : d.anyTarget = false) {e? : Option SourceExpr}
    (h : OptionalExpression d e? w) :
    Follows (fun t u => Expr.OptionCrosses t u e?) w (names (Expr.optionEvents e?)) := by
  cases h with
  | none => exact .nil
  | some h => exact Phrase.Derives.inOrder hd h

theorem VariableDeclaration.follows (hd : d.anyTarget = false) {s : SourceStmt} (h : VariableDeclaration d s w) :
    Follows (fun t u => s.Crosses t u) w (names s.events) := by
  cases h with
  | plain => exact .nil
  | initialized _ _ _ he =>
    exact (Phrase.Derives.inOrder hd he).wider ((((List.sublist_append_left _ _).cons _).cons _).cons _)

theorem ExpressionStatement.follows (hd : d.anyTarget = false) {s : SourceStmt} (h : ExpressionStatement d s w) :
    Follows (fun t u => s.Crosses t u) w (names s.events) := by
  cases h with
  | mk he => exact (Phrase.Derives.inOrder hd he).wider (List.sublist_append_left _ _)

/-- The initializer of a loop is a statement before the loop. -/
theorem LoopInitializer.follows (hd : d.anyTarget = false) {s? : Option SourceStmt} {loop : SourceStmt}
    {w' : List Token} (h : LoopInitializer d s? w)
    (hloop : Follows (fun t u => loop.Crosses t u) w' (names loop.events)) :
    Follows (fun t u => Stmt.AnyCrosses t u (s?.toList ++ [loop])) (w ++ w')
      (names (Stmt.eventsAll (s?.toList ++ [loop]))) := by
  have halone : Stmt.eventsAll [loop] = loop.events := List.append_nil _
  have hbehind {s : SourceStmt} (hs : Follows (fun t u => s.Crosses t u) w (names s.events)) :
      Follows (fun t u => Stmt.AnyCrosses t u [s, loop]) (w ++ w') (names (Stmt.eventsAll [s, loop])) := by
    rw [Stmt.eventsAll, names_append, halone]
    exact hs.append hloop (fun _ _ => .inl) fun _ _ h => .inr (.inl h)
  cases h with
  | none =>
    show Follows _ _ (names (Stmt.eventsAll [loop]))
    rw [halone]
    exact (hloop.mono fun _ _ => .inl).wider (List.sublist_append_right _ _)
  | var hs => exact hbehind (hs.follows hd)
  | expression hs => exact hbehind (hs.follows hd)

/-- What the rules for statements derive, as its names are read. -/
def Clause.InOrder : Clause → List Token → Prop
  | .declaration s _, w | .statement s _, w => Follows (fun t u => s.Crosses t u) w (names s.events)
  | .declarations ss, w => Follows (fun t u => Stmt.AnyCrosses t u ss) w (names (Stmt.eventsAll ss))
  | .function f, w => Follows (fun t u => f.Crosses t u) w (names f.events)
  | .functions fs, w => Follows (fun t u => FunDecl.AnyCrosses t u fs) w (names (FunDecl.eventsAll fs))

/-- The increment stands before the body of the loop and is read behind it. -/
theorem follows_loopBody (hd : d.anyTarget = false) {condition : SourceExpr} {increment : Option SourceExpr}
    {body : SourceStmt} {close : Token} {w' : List Token} (hincrement : OptionalExpression d increment w)
    (hbody : Follows (fun t u => body.Crosses t u) w' (names body.events)) :
    Follows (fun t u => (Stmt.while condition (loopBody body increment)).Crosses t u) (w ++ close :: w')
      (names (loopBody body increment).events) := by
  have hbody' := hbody.wider (List.sublist_cons_self close w')
  cases hincrement with
  | none => exact hbody'.mono fun _ _ h => .inr (.inl h)
  | @some increment w h =>
    have hround : names (loopBody body (some increment)).events = names body.events ++ names increment.events := by
      simp [loopBody, Stmt.events, Stmt.eventsAll]
    rw [hround]
    exact Follows.swap (Phrase.Derives.inOrder hd h) hbody' (fun _ _ h => .inr (.inl (.inr (.inl h))))
      (fun _ _ h => .inr (.inl (.inl h))) fun t ht u hu => .inr (.inr ⟨ht, hu⟩)

/-- The increment is written before the body and comes after it in the tree, so their names cross. -/
theorem follows_loop (hd : d.anyTarget = false) {condition increment : Option SourceExpr} {body : SourceStmt}
    (semicolon close : Token) {w₁ w₂ w₃ : List Token} (hcondition : OptionalExpression d condition w₁)
    (hincrement : OptionalExpression d increment w₂)
    (hbody : Follows (fun t u => body.Crosses t u) w₃ (names body.events)) :
    Follows
      (fun t u => (Stmt.while (condition.getD (.literal (.bool true))) (loopBody body increment)).Crosses t u)
      (w₁ ++ semicolon :: (w₂ ++ close :: w₃))
      (names (Stmt.while (condition.getD (.literal (.bool true))) (loopBody body increment)).events) := by
  have hcondition' : Follows (fun t u => (condition.getD (.literal (.bool true))).Crosses t u) w₁
      (names (condition.getD (.literal (.bool true))).events) := by
    cases hcondition with
    | none => exact .nil
    | some h => exact Phrase.Derives.inOrder hd h
  rw [Stmt.events, names_append]
  exact hcondition'.append ((follows_loopBody hd hincrement hbody).wider (List.sublist_cons_self semicolon _))
    (fun _ _ => .inl) fun _ _ => id

/-- By induction on the derivation. Parameters and superclasses are written before what belongs to them. -/
theorem Clause.Derives.inOrder (hd : d.anyTarget = false) {c : Clause} (h : c.Derives d w) : c.InOrder w := by
  -- keywords and parentheses have no names; they only widen the list of tokens
  induction h with
  | @classDeclaration keyword name open' close heritage methods w₁ w₂ _ _ hheritage _ _ _ ih =>
    have hmethods := ih.wider ((List.sublist_append_left w₂ [close]).cons open')
    have hnames : names (Stmt.class name heritage methods).events
        = (heritage.map (·.name)).toList ++ names (FunDecl.eventsAll methods) := by
      cases heritage <;> simp [Stmt.events]
    have hheritage' : Follows (fun _ _ => False) w₁ (heritage.map (·.name)).toList := by
      cases hheritage with
      | none => exact .nil
      | some => exact .single (List.mem_cons_of_mem _ List.mem_cons_self)
    rw [Clause.InOrder, hnames]
    exact (hheritage'.append hmethods (fun _ _ => False.elim) fun _ _ => id).wider
      (List.sublist_append_right [keyword, name] _)
  | functionDeclaration _ _ ih => exact ih.wider (List.sublist_cons_self _ _)
  | variableDeclaration h => exact h.follows hd
  | statement _ ih => exact ih
  | expression h => exact h.follows hd
  | @forLoop keyword open' semicolon close _ _ _ _ _ _ _ _ _ _ _ hinitializer hcondition _ hincrement _ _ ih =>
    have hloop := follows_loop hd semicolon close hcondition hincrement ih
    rw [Clause.InOrder, Stmt.events, names_scope]
    exact (hinitializer.follows hd hloop).wider (List.sublist_append_right [keyword, open'] _)
  | @ifThen keyword open' close condition thenBranch o w₁ w₂ _ _ hcondition _ _ ih =>
    have hcondition' := Phrase.Derives.inOrder hd hcondition
    rw [Clause.InOrder, Stmt.events, List.append_nil, names_append]
    exact (hcondition'.append (ih.wider (List.sublist_cons_self close w₂)) (fun _ _ => .inl)
      fun _ _ h => .inr (.inl h)).wider (List.sublist_append_right [keyword, open'] _)
  | @ifElse keyword open' close else' _ thenBranch elseBranch _ _ _ _ w₃ _ _ hcondition _ _ _ _ _ ih ih' =>
    have hcondition' := Phrase.Derives.inOrder hd hcondition
    have hbranches := Follows.append (C := fun t u => thenBranch.Crosses t u ∨ elseBranch.Crosses t u) ih
      (ih'.wider (List.sublist_cons_self else' w₃)) (fun _ _ => .inl) fun _ _ => .inr
    rw [Clause.InOrder, Stmt.events, names_append, names_append]
    exact (hcondition'.append (hbranches.wider (List.sublist_cons_self close _)) (fun _ _ => .inl)
      fun _ _ => .inr).wider (List.sublist_append_right [keyword, open'] _)
  | printing _ he =>
    exact (Phrase.Derives.inOrder hd he).wider ((List.sublist_append_left _ _).cons _)
  | returning _ hvalue => exact (hvalue.follows hd).wider ((List.sublist_append_left _ _).cons _)
  | @whileLoop keyword open' close condition body o w₁ w₂ _ _ hcondition _ _ ih =>
    have hcondition' := Phrase.Derives.inOrder hd hcondition
    rw [Clause.InOrder, Stmt.events, names_append]
    exact (hcondition'.append (ih.wider (List.sublist_cons_self close w₂)) (fun _ _ => .inl)
      fun _ _ h => .inr (.inl h)).wider (List.sublist_append_right [keyword, open'] _)
  | block _ _ _ ih =>
    rw [Clause.InOrder, Stmt.events, names_scope]
    exact ih.wider ((List.sublist_append_left _ _).cons _)
  | noDeclaration => exact .nil
  | moreDeclarations _ _ ih ih' =>
    rw [Clause.InOrder, Stmt.eventsAll, names_append]
    exact Follows.append ih ih' (fun _ _ => .inl) fun _ _ => .inr
  | function _ _ _ _ _ _ _ _ ih =>
    rw [Clause.InOrder, FunDecl.events, names_scope, names_append, names_params]
    exact (ih.wider (((List.sublist_append_left _ _).cons _).cons _)).wider
      (((List.sublist_append_right _ _).cons _).cons _)
  | noFunction => exact .nil
  | moreFunctions _ _ ih ih' =>
    rw [Clause.InOrder, FunDecl.eventsAll, names_append]
    exact Follows.append ih ih' (fun _ _ => .inl) fun _ _ => .inr

/-- The names of a program are read in the order of its tokens, but for names that cross. -/
theorem Program.follows (hd : d.anyTarget = false) {ss : List SourceStmt} (h : Program d ss w) :
    Follows (fun t u => Stmt.AnyCrosses t u ss) w (names (Stmt.eventsAll ss)) :=
  Clause.Derives.inOrder hd h

end

end LoxLang
