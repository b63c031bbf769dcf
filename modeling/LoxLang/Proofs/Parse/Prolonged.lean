import LoxLang.Proofs.Parse.Complaints

/-!
# Parsers on prolonged lists

With further tokens behind its list a parser does the same as without them, until it comes past the end of the list.
Only what happens from then on depends on the further tokens. This holds of every list, with or without an end token,
and for every bound on nesting that exceeds the number of tokens.

* **`Reply.Grows`** — how two replies compare, one on a list and one on the list with further tokens.
* **`Parser.Prolongs`** — one parser prolongs another, as a triple with a rule for each way to compose parsers. It is
  about two parsers because the bounds on nesting differ.
* **`Parser.prolongs_declaration`**, **`Parser.prolongs_program`** — whole parsers prolong themselves.

Past the end of the shorter list nothing is claimed but this: what is left there is part of the further tokens, and the
complaints made there are about these tokens. That is enough to compare parses of a program cut off at any point.
-/

namespace LoxLang

/-- Complaints about tokens of a list that do not fit, and some that the relaxed grammar excuses. -/
def Diagnostic.About (r : List Token) (ds : List Diagnostic) : Prop :=
  ∀ d ∈ ds, ∃ cause t, d = .ofToken .parse cause t ∧
    (Dialect.relaxed.excuses cause = true ∨ cause.isMisfit = true ∧ t ∈ r)

/-- Complaints of one parser and of the one behind it. -/
theorem Diagnostic.About.append {r : List Token} {ds ds' : List Diagnostic} (h : About r ds) (h' : About r ds') :
    About r (ds ++ ds') :=
  List.forall_mem_append.mpr ⟨h, h'⟩

/-- Complaints about a part of a list are complaints about the list. -/
theorem Diagnostic.About.mono {r r' : List Token} {ds : List Diagnostic} (h : About r ds) (hsub : r ⊆ r') :
    About r' ds := by
  intro d hd
  obtain ⟨cause, t, rfl, hcause⟩ := h d hd
  exact ⟨cause, t, rfl, hcause.imp_right fun h => ⟨h.1, hsub h.2⟩⟩

/-- A reply on the list `ts`, and one on the list with the tokens `r` behind it. -/
inductive Reply.Grows {α : Type} (ts r : List Token) (reply reply' : Reply α) : Prop where
  /-- The further tokens have not been looked at. -/
  | same (hresult : reply.result ≠ .error .pastEnd) (hrest : reply.rest <:+ ts)
      (hreply : reply' = ⟨reply.result, reply.rest ++ r, reply.diagnostics⟩)
  /-- The list has come to its end. -/
  | further {more : List Diagnostic} (hresult : reply.result = .error .pastEnd) (hrest : reply.rest = [])
      (hrest' : reply'.rest <:+ r) (hreply : reply'.diagnostics = reply.diagnostics ++ more)
      (hmore : Diagnostic.About r more)

/-- A token that is taken from the front of both lists. -/
theorem Reply.Grows.cons {α : Type} {t : Token} {ts r : List Token} {reply reply' : Reply α}
    (h : Reply.Grows ts r reply reply') : Reply.Grows (t :: ts) r reply reply' := by
  cases h with
  | same hresult hrest hreply => exact .same hresult (hrest.trans (List.suffix_cons t ts)) hreply
  | further hresult hrest hrest' hreply hmore => exact .further hresult hrest hrest' hreply hmore

namespace Parser

variable {α β : Type} {U r : List Token} {N : Nat}

/-- The parser `q` prolongs the parser `p` on lists shorter than `N`, if the tokens `r` are put behind them. All tokens
are among `U`. -/
structure Prolongs (U r : List Token) (N : Nat) (p q : Parser α) : Prop where
  tame : Tame U q
  grows : ∀ ts, ts ++ r ⊆ U → ts.length < N → Reply.Grows ts r (p ts) (q (ts ++ r))

/-- On lists shorter than `N`, a result takes a token, unless the end token is in front. -/
def Advances (p : Parser α) (N : Nat) : Prop :=
  ∀ t ts a, t.kind ≠ .eof → (t :: ts).length < N → (p (t :: ts)).result = .ok a →
    (p (t :: ts)).rest.length < (t :: ts).length

/-- The fewer lists are spoken of, the less is claimed. -/
theorem Advances.mono {p : Parser α} {M : Nat} (h : Advances p N) (hle : M ≤ N) : Advances p M :=
  fun t ts a ht hlen hresult => h t ts a ht (by omega) hresult

/-- What a parser complains about is about its list. -/
theorem Tame.about {p : Parser α} (hp : Tame U p) {ts : List Token} (hts : ts ⊆ U) :
    Diagnostic.About ts (p ts).diagnostics := by
  intro d hd
  obtain ⟨cause, t, -, rfl, hcause⟩ := (hp ts hts).2 d hd
  exact ⟨cause, t, rfl, hcause⟩

/-- What has been left is among the same tokens. -/
theorem append_subset_of_suffix {rest ts : List Token} (hrest : rest <:+ ts) (hts : ts ++ r ⊆ U) : rest ++ r ⊆ U :=
  fun _ ht => hts ((List.append_subset.mpr
    ⟨fun _ hu => List.mem_append_left r (hrest.subset hu), List.subset_append_right ts r⟩) ht)

variable {p q : Parser α} {f g : α → Parser β}

/-- One parser behind another. Where the first has come past the end, all that the second does is done on further
tokens. -/
theorem Grows.bind {ts : List Token} (h : Reply.Grows ts r (p ts) (q (ts ++ r)))
    (hg : ∀ a, Tame U (g a)) (hr : r ⊆ U)
    (hf : ∀ a rest, rest <:+ ts → (∃ ds, p ts = ⟨.ok a, rest, ds⟩) →
      Reply.Grows rest r (f a rest) (g a (rest ++ r))) :
    Reply.Grows ts r ((p >>= f) ts) ((q >>= g) (ts ++ r)) := by
  -- both fail, or only the one that has come to its end, or none
  rcases hp : p ts with ⟨e | a, rest, ds⟩ <;> rcases hq : q (ts ++ r) with ⟨e' | b, rest', ds'⟩ <;>
    rw [hp, hq] at h
  · rw [bind_error hp, bind_error hq]
    cases h with
    | same hresult hrest hreply =>
      cases hreply
      refine .same (fun h => ?_) hrest rfl
      cases h
      exact hresult rfl
    | further hresult hrest hrest' hds hmore =>
      cases hresult
      exact .further rfl hrest hrest' hds hmore
  · rw [bind_error hp, bind_reply hq]
    cases h with
    | same hresult hrest hreply => cases hreply
    | further hresult hrest hrest' hds hmore =>
      cases hresult
      -- the second parser does not run on the shorter list, and on the longer one it stays among its tokens
      have hsub : rest' ⊆ U := fun t ht => hr (hrest'.subset ht)
      have htail := ((hg b).about hsub).mono hrest'.subset
      refine .further rfl hrest (((hg b) rest' hsub).1.trans hrest') ?_ (hmore.append htail)
      simp only at hds ⊢
      rw [hds, List.append_assoc]
  · cases h with
    | same hresult hrest hreply => cases hreply
    | further hresult => cases hresult
  · rw [bind_reply hp, bind_reply hq]
    cases h with
    | same hresult hrest hreply =>
      cases hreply
      cases hf a rest hrest ⟨ds, hp⟩ with
      | same hresult' hrest' hreply' =>
        rw [hreply']
        exact .same hresult' (hrest'.trans hrest) rfl
      | further hresult' hrest' hrest'' hds hmore =>
        refine .further hresult' hrest' hrest'' ?_ hmore
        simp only [hds, List.append_assoc]
    | further hresult => cases hresult

namespace Prolongs

/-! ## Rules

A list that is shorter than `N` stays shorter when tokens are taken, so a rule that takes one gives the parser behind it
a bound that is one less. That is what the induction on the nesting lives on. -/

/-- The fewer lists are spoken of, the less is claimed. -/
theorem mono {M : Nat} (h : Prolongs U r N p q) (hle : M ≤ N) : Prolongs U r M p q :=
  ⟨h.tame, fun ts hts hlen => h.grows ts hts (by omega)⟩

/-- Nothing is looked at, so the further tokens are not either. -/
theorem pure (a : α) : Prolongs U r N (pure a) (pure a) :=
  ⟨.pure a, fun ts _ _ => .same (fun h => by cases h) (List.suffix_refl ts) rfl⟩

theorem bind (h : Prolongs U r N p q) (hf : ∀ a, Prolongs U r N (f a) (g a)) :
    Prolongs U r N (p >>= f) (q >>= g) := by
  refine ⟨h.tame.bind fun a => (hf a).tame, fun ts hts hlen => ?_⟩
  obtain ⟨-, hr⟩ := List.append_subset.mp hts
  refine Grows.bind (h.grows ts hts hlen) (fun a => (hf a).tame) hr fun a rest hrest hp => ?_
  have hlen' : rest.length < N := Nat.lt_of_le_of_lt hrest.length_le hlen
  exact (hf a).grows rest (append_subset_of_suffix hrest hts) hlen'

/-- Results are equal, so what is made of them is. -/
theorem map (k : α → β) (h : Prolongs U r N p q) : Prolongs U r N (k <$> p) (k <$> q) :=
  h.bind fun a => .pure (k a)

/-- The test is on a result, which is the same on both lists. -/
theorem ite {c : Prop} [Decidable c] {p' q' : Parser α} (h : Prolongs U r N p q) (h' : Prolongs U r N p' q') :
    Prolongs U r N (if c then p else p') (if c then q else q') := by
  split
  · exact h
  · exact h'

/-- The bounds may differ, as long as each exceeds the number of tokens. -/
theorem sized {p q : Nat → Parser α} (hq : ∀ n, Tame U (q n))
    (h : ∀ n m, n + r.length ≤ m → Prolongs U r (min n N) (p n) (q m)) :
    Prolongs U r N (Parser.sized p) (Parser.sized q) := by
  refine ⟨.sized hq, fun ts hts hlen => ?_⟩
  refine (h (ts.length + 1) ((ts ++ r).length + 1) ?_).grows ts hts ?_
  · rw [List.length_append]
    omega
  · exact Nat.lt_min.mpr ⟨Nat.lt_succ_self _, hlen⟩

/-- A parser that needs a token: what it does with the one in front decides. -/
theorem of_cons (hq : Tame U q) (hp : p [] = ⟨.error .pastEnd, [], []⟩)
    (h : ∀ t ts, t ∈ U → ts ++ r ⊆ U → ts.length < N - 1 →
      Reply.Grows (t :: ts) r (p (t :: ts)) (q (t :: (ts ++ r)))) : Prolongs U r N p q := by
  refine ⟨hq, fun ts hts hlen => ?_⟩
  cases ts with
  | nil =>
    rw [hp]
    exact .further rfl rfl (hq r hts).1 rfl (hq.about hts)
  | cons t ts =>
    rw [List.length_cons] at hlen
    exact h t ts (hts List.mem_cons_self) (fun u hu => hts (List.mem_cons_of_mem t hu)) (by omega)

/-- What is left to do on the same lists. -/
theorem grows_cons (h : Prolongs U r N p q) {t : Token} {ts : List Token} (ht : t ∈ U) (hts : ts ++ r ⊆ U)
    (hlen : ts.length < N - 1) : Reply.Grows (t :: ts) r (p (t :: ts)) (q (t :: (ts ++ r))) :=
  h.grows (t :: ts) (List.cons_subset.mpr ⟨ht, hts⟩) (by rw [List.length_cons]; omega)

/-- A look at the token in front needs one; on the empty list the parser has come to the end. -/
theorem check {kind : Kind} {f g : Bool → Parser β} (h : ∀ b, Prolongs U r N (f b) (g b)) :
    Prolongs U r N (check kind >>= f) (check kind >>= g) := by
  refine of_cons ((tame_check kind).bind fun b => (h b).tame) rfl fun t ts ht hts hlen => ?_
  rw [bind_ok (check_cons kind t ts), bind_ok (check_cons kind t (ts ++ r))]
  exact (h _).grows_cons ht hts hlen

/-- A token that is taken shortens the list. -/
theorem accept? {kinds : List Kind} {f g : Option Token → Parser β}
    (hsome : ∀ t ∈ U, Prolongs U r (N - 1) (f (some t)) (g (some t))) (hnone : Prolongs U r N (f none) (g none)) :
    Prolongs U r N (accept? kinds >>= f) (accept? kinds >>= g) := by
  refine of_cons (.accept? (fun t ht => (hsome t ht).tame) hnone.tame) rfl fun t ts ht hts hlen => ?_
  by_cases hkind : t.kind ∈ kinds
  · rw [bind_ok (accept?_pos hkind ts), bind_ok (accept?_pos hkind (ts ++ r))]
    exact ((hsome t ht).grows ts hts hlen).cons
  · rw [bind_ok (accept?_neg hkind ts), bind_ok (accept?_neg hkind (ts ++ r))]
    exact hnone.grows_cons ht hts hlen

/-- If the token is taken then what is behind it is one shorter, otherwise nothing has happened. -/
theorem accept {kind : Kind} {f g : Bool → Parser β} (htrue : Prolongs U r (N - 1) (f true) (g true))
    (hfalse : Prolongs U r N (f false) (g false)) :
    Prolongs U r N (accept kind >>= f) (accept kind >>= g) := by
  refine of_cons ((tame_accept kind).bind fun b => ?_) rfl fun t ts ht hts hlen => ?_
  · cases b with
    | true => exact htrue.tame
    | false => exact hfalse.tame
  by_cases hkind : t.kind = kind
  · rw [bind_ok (accept_pos hkind ts), bind_ok (accept_pos hkind (ts ++ r))]
    exact (htrue.grows ts hts hlen).cons
  · rw [bind_ok (accept_neg hkind ts), bind_ok (accept_neg hkind (ts ++ r))]
    exact hfalse.grows_cons ht hts hlen

/-- The complaint is about the token in front, which is the same one on both lists. -/
theorem reject {cause : Cause} (hcause : cause.isMisfit = true) :
    Prolongs U r N (reject cause : Parser α) (reject cause) :=
  of_cons (tame_reject hcause) rfl fun t ts _ _ _ => .same (fun h => by cases h) (List.suffix_refl _) rfl

/-- The token is taken on both lists or rejected on both. -/
theorem expect {kind : Kind} {expected : String} {f g : Token → Parser β}
    (h : ∀ t, Prolongs U r (N - 1) (f t) (g t)) :
    Prolongs U r N (expect kind expected >>= f) (expect kind expected >>= g) := by
  refine of_cons ((tame_expect kind expected).bind fun t => (h t).tame) rfl fun t ts ht hts hlen => ?_
  by_cases hkind : t.kind = kind
  · rw [bind_ok (expect_pos hkind expected ts), bind_ok (expect_pos hkind expected (ts ++ r))]
    exact ((h t).grows ts hts hlen).cons
  · rw [bind_error (expect_neg hkind expected ts), bind_error (expect_neg hkind expected (ts ++ r))]
    exact .same (fun h => by cases h) (List.suffix_refl _) rfl

/-- A token that is expected, without anything behind it. -/
theorem token (kind : Kind) (expected : String) :
    Prolongs U r N (Parser.expect kind expected) (Parser.expect kind expected) :=
  .accept? (fun _ _ => .pure _) (.reject rfl)

/-- The complaint is about the token in front and is one that the relaxed grammar excuses. -/
theorem report {cause : Cause} (hcause : Dialect.relaxed.excuses cause = true) :
    Prolongs U r N (report cause) (report cause) :=
  of_cons (tame_report (.inl hcause)) rfl fun t ts _ _ _ => .same (fun h => by cases h) (List.suffix_refl _) rfl

/-! ## Repetition

The loops of the two parsers have different bounds, and the bound of the longer list has to exceed the other by the
number of further tokens. In the induction both are counted down together. -/

/-- Rounds of a loop, each of which takes a token. -/
theorem whileM (go : Token → Bool) {more : Parser Bool} {item item' : Parser α} (hmore : Tame U more)
    (hnil : more [] = ⟨.error .pastEnd, [], []⟩) (hcons : ∀ t ts, more (t :: ts) = ⟨.ok (go t), t :: ts, []⟩)
    (hitem : Prolongs U r N item item')
    (heof : ∀ t, go t = true → t.kind ≠ .eof) (hadvances : Advances item N)
    (n m : Nat) (hnm : n + r.length ≤ m) : Prolongs U r (min n N) (whileM more item n) (whileM more item' m) := by
  induction n generalizing m with
  | zero =>
    refine ⟨tame_whileM hmore hitem.tame m, fun ts _ hlen => ?_⟩
    omega
  | succ n ih =>
    obtain ⟨m, rfl⟩ : ∃ k, m = k + 1 := ⟨m - 1, by omega⟩
    refine of_cons (tame_whileM hmore hitem.tame (m + 1)) (bind_error hnil) fun t ts ht hts hlen => ?_
    rw [Parser.whileM, Parser.whileM, bind_ok (hcons t ts), bind_ok (hcons t (ts ++ r))]
    cases hgo : go t with
    | false => exact .same (fun h => by cases h) (List.suffix_refl _) rfl
    | true =>
      have htail : ∀ a, Tame U (Parser.whileM more item' m >>= fun as => Pure.pure (a :: as)) := fun a =>
        (tame_whileM hmore hitem.tame m).bind fun _ => .pure _
      have hr := (List.append_subset.mp hts).2
      have hlen' : (t :: ts).length < N := by rw [List.length_cons]; omega
      refine Grows.bind (hitem.grows_cons ht hts (by omega)) htail hr fun a rest hrest hp => ?_
      obtain ⟨ds, hp⟩ := hp
      have hsub : (t :: ts) ++ r ⊆ U := List.cons_subset.mpr ⟨ht, hts⟩
      -- each round takes a token, so that the rounds left are enough for the rest
      have hless := hadvances t ts a (heof t hgo) hlen' (by rw [hp])
      simp only [hp, List.length_cons] at hless
      exact ((ih m (by omega)).bind fun as => .pure (a :: as)).grows rest (append_subset_of_suffix hrest hsub)
        (by omega)

/-- Items and commas. A comma is taken in each round but the last. -/
theorem commaSeparated {item item' : Parser α} (hitem : Prolongs U r N item item') {tooMany : Cause}
    (hmany : Dialect.relaxed.excuses tooMany = true) (n m count : Nat) (hnm : n + r.length ≤ m) :
    Prolongs U r (min n N) (commaSeparated tooMany item n count) (commaSeparated tooMany item' m count) := by
  induction n generalizing m count with
  | zero =>
    refine ⟨tame_commaSeparated hitem.tame hmany m count, fun ts _ hlen => ?_⟩
    omega
  | succ n ih =>
    obtain ⟨m, rfl⟩ : ∃ k, m = k + 1 := ⟨m - 1, by omega⟩
    -- one round with the bounds of both sides; the limit on items may add a complaint before it
    have hrest : Prolongs U r (min (n + 1) N)
        (do
          let a ← item
          if ← Parser.accept .comma then
            return a :: (← Parser.commaSeparated tooMany item n (count + 1))
          else
            return [a])
        (do
          let a ← item'
          if ← Parser.accept .comma then
            return a :: (← Parser.commaSeparated tooMany item' m (count + 1))
          else
            return [a]) := by
      refine (hitem.mono (Nat.min_le_right _ _)).bind fun a => .accept ?_ (.pure _)
      exact ((ih m (count + 1) (by omega)).mono (by omega)).bind fun _ => .pure _
    unfold Parser.commaSeparated
    exact .ite ((report hmany).bind fun _ => hrest) hrest

/-- Whether the list is empty is seen by the token in front. -/
theorem untilParen {item item' : Parser α} (hitem : Prolongs U r N item item') {tooMany : Cause}
    (hmany : Dialect.relaxed.excuses tooMany = true) :
    Prolongs U r N (untilParen tooMany item) (untilParen tooMany item') :=
  .check fun _ => .ite (.pure _) <| .sized (fun n => tame_commaSeparated hitem.tame hmany n 0)
    fun n m hnm => commaSeparated hitem hmany n m 0 hnm

end Prolongs

/-! ## Expressions

From the tightest level outwards, with `self` one level deeper in the nesting, so on lists that are one token shorter.
-/

section Expressions

variable {self self' : Parser SourceExpr} (hself : Prolongs U r (N - 1) self self')
include hself

/-- A parenthesis is taken before `self` is called on what is in it. -/
theorem prolongs_primary : Prolongs U r N (primary self) (primary self') := by
  refine .of_cons (tame_primary hself.tame) rfl fun t ts ht hts hlen => ?_
  have hlook : ∀ (self : Parser SourceExpr) (ts : List Token), primary self (t :: ts) = _ :=
    fun self ts => bind_ok (peek_cons t ts)
  rw [hlook, hlook]
  -- a single token is taken without a look at what comes behind it
  have htake : ∀ e, Reply.Grows (t :: ts) r (primary.take e (t :: ts)) (primary.take e (t :: (ts ++ r))) :=
    fun e => .same (fun h => by cases h) (List.suffix_cons t ts) rfl
  cases t.kind with
  | «super» =>
    refine Prolongs.grows_cons ?_ ht hts hlen
    exact .expect fun _ => .expect fun _ => .expect fun _ => .pure _
  | leftParen =>
    refine Prolongs.grows_cons ?_ ht hts hlen
    exact .expect fun _ => hself.bind fun _ => .expect fun _ => .pure _
  | «false» | «true» | nil | number | string | this | identifier => exact htake _
  | _ => exact (Prolongs.reject rfl).grows_cons ht hts hlen

/-- The parenthesis of the arguments is taken before they are read. -/
theorem prolongs_callTail (n m : Nat) (hnm : n + r.length ≤ m) (e : SourceExpr) :
    Prolongs U r (min n N) (callTail self n e) (callTail self' m e) := by
  induction n generalizing m e with
  | zero =>
    refine ⟨tame_callTail hself.tame m e, fun ts _ hlen => ?_⟩
    omega
  | succ n ih =>
    obtain ⟨m, rfl⟩ : ∃ k, m = k + 1 := ⟨m - 1, by omega⟩
    -- each suffix takes a token in front of the next one
    have hmore : ∀ e, Prolongs U r (min (n + 1) N - 1) (callTail self n e) (callTail self' m e) :=
      fun e => (ih m (by omega) e).mono (by omega)
    unfold callTail
    refine .accept ?_ (.accept ?_ (.pure e))
    · refine (Prolongs.untilParen (hself.mono (by omega)) (by rfl)).bind fun arguments => ?_
      exact .expect fun paren => (hmore _).mono (by omega)
    · exact .expect fun name => (hmore _).mono (by omega)

/-- An operand and what is applied to it. -/
theorem prolongs_call : Prolongs U r N (call self) (call self') :=
  (prolongs_primary hself).bind fun e => .sized (fun n => tame_callTail hself.tame n e)
    fun n m hnm => prolongs_callTail hself n m hnm e

omit hself in
/-- Operators are taken one by one, with a round for each on both lists. -/
theorem prolongs_unaryOperators (n m : Nat) (hnm : n + r.length ≤ m) :
    Prolongs U r (min n N) (unaryOperators n) (unaryOperators m) := by
  induction n generalizing m with
  | zero =>
    refine ⟨tame_unaryOperators m, fun ts _ hlen => ?_⟩
    omega
  | succ n ih =>
    obtain ⟨m, rfl⟩ : ∃ k, m = k + 1 := ⟨m - 1, by omega⟩
    exact .accept? (fun _ _ => ((ih m (by omega)).mono (by omega)).bind fun _ => .pure _) (.pure _)

/-- The operators are collected alike, and so is the operand. -/
theorem prolongs_unary : Prolongs U r N (unary self) (unary self') :=
  (Prolongs.sized tame_unaryOperators prolongs_unaryOperators).bind fun _ =>
    (prolongs_call hself).bind fun _ => .pure _

omit hself in
/-- Each round takes an operator before it reads the operand behind it. -/
theorem prolongs_operatorTail {operand operand' : Parser SourceExpr} (hoperand : Prolongs U r N operand operand')
    (kinds : List Kind) (build : SourceExpr → Token → SourceExpr → SourceExpr) (n m : Nat)
    (hnm : n + r.length ≤ m) (left : SourceExpr) :
    Prolongs U r (min n N) (operatorTail kinds build operand n left) (operatorTail kinds build operand' m left) := by
  induction n generalizing m left with
  | zero =>
    refine ⟨tame_operatorTail hoperand.tame kinds build m left, fun ts _ hlen => ?_⟩
    omega
  | succ n ih =>
    obtain ⟨m, rfl⟩ : ∃ k, m = k + 1 := ⟨m - 1, by omega⟩
    refine .accept? (fun operator _ => ?_) (.pure left)
    exact (hoperand.mono (by omega)).bind fun right => (ih m (by omega) _).mono (by omega)

omit hself in
/-- A level of binary operators, over the level below it. -/
theorem prolongs_leftAssociative {operand operand' : Parser SourceExpr} (hoperand : Prolongs U r N operand operand')
    (kinds : List Kind) (build : SourceExpr → Token → SourceExpr → SourceExpr) :
    Prolongs U r N (leftAssociative kinds build operand) (leftAssociative kinds build operand') :=
  hoperand.bind fun left => .sized (fun n => tame_operatorTail hoperand.tame kinds build n left)
    fun n m hnm => prolongs_operatorTail hoperand kinds build n m hnm left

/-- All the levels of binary operators, one over the other. -/
theorem prolongs_disjunction : Prolongs U r N (disjunction self) (disjunction self') := by
  have hfactor : Prolongs U r N (factor self) (factor self') := prolongs_leftAssociative (prolongs_unary hself) _ _
  have hterm : Prolongs U r N (term self) (term self') := prolongs_leftAssociative hfactor _ _
  have hcomparison : Prolongs U r N (comparison self) (comparison self') := prolongs_leftAssociative hterm _ _
  have hequality : Prolongs U r N (equality self) (equality self') := prolongs_leftAssociative hcomparison _ _
  have hconjunction : Prolongs U r N (conjunction self) (conjunction self') := prolongs_leftAssociative hequality _ _
  exact prolongs_leftAssociative hconjunction _ _

/-- The equals sign is taken before the value is read. -/
theorem prolongs_assignment : Prolongs U r N (assignment self) (assignment self') := by
  refine (prolongs_disjunction hself).bind fun target => .accept? (fun equals hequals => ?_) (.pure target)
  refine hself.bind fun value => ?_
  have hreport : ∀ ts, ts ++ r ⊆ U → ts.length < N - 1 →
      Reply.Grows ts r (reportOn equals .invalidAssignmentTarget ts)
        (reportOn equals .invalidAssignmentTarget (ts ++ r)) :=
    fun ts _ _ => .same (fun h => by cases h) (List.suffix_refl ts) rfl
  cases target with
  | «variable» | get => exact .pure _
  | _ => exact (Prolongs.mk (tame_reportOn hequals rfl) hreport).bind fun _ => .pure _

omit hself in
/-- By induction on the nesting. The bound is on the depth, and a depth of as many levels as there are tokens is enough.
-/
theorem prolongs_nestedExpression (n m : Nat) (hnm : n + r.length ≤ m) :
    Prolongs U r n (nestedExpression n) (nestedExpression m) := by
  induction n generalizing m with
  | zero =>
    refine ⟨tame_nestedExpression m, fun ts _ hlen => ?_⟩
    omega
  | succ n ih =>
    obtain ⟨m, rfl⟩ : ∃ k, m = k + 1 := ⟨m - 1, by omega⟩
    exact prolongs_assignment (ih m (by omega))

omit hself in
/-- The parser for expressions takes its bound from the number of tokens. -/
theorem prolongs_expression : Prolongs U r N expression expression :=
  .sized tame_nestedExpression fun n m hnm => (prolongs_nestedExpression n m hnm).mono (Nat.min_le_left n N)

end Expressions

/-! ## Simple statements

These contain expressions and no statements, so that they need no bound. -/

/-- Token by token, with an initializer behind the equals sign. -/
theorem prolongs_varDeclaration : Prolongs U r N varDeclaration varDeclaration :=
  .expect fun _ => .accept (prolongs_expression.bind fun _ => .expect fun _ => .pure _)
    (.expect fun _ => .pure _)

theorem prolongs_expressionStatement : Prolongs U r N expressionStatement expressionStatement :=
  prolongs_expression.bind fun _ => .expect fun _ => .pure _

/-- Whether the clause is missing is seen by the token in front. -/
theorem prolongs_expressionUnless (kind : Kind) :
    Prolongs U r N (expressionUnless kind) (expressionUnless kind) :=
  .check fun _ => .ite (.pure _) (prolongs_expression.bind fun _ => .pure _)

/-- Which of its three forms it has is seen by the token in front. -/
theorem prolongs_loopInitializer : Prolongs U r N loopInitializer loopInitializer :=
  .accept (.pure _) <| .accept (prolongs_varDeclaration.bind fun _ => .pure _)
    (prolongs_expressionStatement.bind fun _ => .pure _)

theorem prolongs_printStatement : Prolongs U r N printStatement printStatement :=
  prolongs_expression.bind fun _ => .expect fun _ => .pure _

/-- Whether there is a value is seen by the token in front. -/
theorem prolongs_returnStatement (keyword : Token) :
    Prolongs U r N (returnStatement keyword) (returnStatement keyword) :=
  (prolongs_expressionUnless _).bind fun _ => .expect fun _ => .pure _

/-! ## Statements with a body

The parser for statements is called behind the keyword and the parentheses, so on a list that is shorter. -/

section Bodies

variable {statement statement' : Parser SourceStmt} (hstatement : Prolongs U r N statement statement')
include hstatement

/-- The condition in parentheses, then the body. -/
theorem prolongs_whileStatement : Prolongs U r N (whileStatement statement) (whileStatement statement') :=
  .expect fun _ => prolongs_expression.bind fun _ => .expect fun _ =>
    (hstatement.mono (by omega)).bind fun _ => .pure _

/-- The token behind the first branch decides whether there is another one; if the list ends there, it has come to its
end. -/
theorem prolongs_ifStatement : Prolongs U r N (ifStatement statement) (ifStatement statement') :=
  .expect fun _ => prolongs_expression.bind fun _ => .expect fun _ =>
    (hstatement.mono (by omega)).bind fun _ =>
      .accept ((hstatement.mono (by omega)).bind fun _ => .pure _) (.pure _)

/-- The clauses are read alike, so the block made of them is the same. -/
theorem prolongs_forStatement : Prolongs U r N (forStatement statement) (forStatement statement') :=
  .expect fun _ => prolongs_loopInitializer.bind fun _ => (prolongs_expressionUnless _).bind fun _ =>
    .expect fun _ => (prolongs_expressionUnless _).bind fun _ => .expect fun _ =>
      (hstatement.mono (by omega)).bind fun _ => .pure _

end Bodies

/-! ## Recovery

Recovery is where parsers on broken lists might differ: what is skipped depends on what comes. But it stops in front of
a token that it has seen, or else it has come to the end. -/

/-- Token by token, each dropped or kept on both lists. -/
theorem grows_nextStatement (previous : Token) (ts : List Token) :
    Reply.Grows ts r (nextStatement previous ts) (nextStatement previous (ts ++ r)) := by
  induction ts generalizing previous with
  | nil =>
    obtain ⟨hrest, hds⟩ := nextStatement_rest previous r
    exact .further rfl rfl hrest hds (List.forall_mem_nil _)
  | cons t ts ih =>
    rw [List.cons_append]
    unfold nextStatement
    split
    · exact .same (fun h => by cases h) (List.suffix_refl _) rfl
    · exact (ih t).cons

/-- One token is dropped without a look at it. -/
theorem grows_synchronize (ts : List Token) : Reply.Grows ts r (synchronize ts) (synchronize (ts ++ r)) := by
  cases ts with
  | nil =>
    obtain ⟨hrest, hds⟩ := synchronize_rest r
    exact .further rfl rfl hrest hds (List.forall_mem_nil _)
  | cons t ts =>
    rw [List.cons_append, synchronize, synchronize]
    split
    · exact .same (fun h => by cases h) (List.suffix_refl _) rfl
    · exact (grows_nextStatement t ts).cons

/-- Where the one recovers and the other does not, the list has come to its end. -/
theorem Prolongs.orSynchronize {p q : Parser SourceStmt} (h : Prolongs U r N p q) :
    Prolongs U r N (orSynchronize p) (orSynchronize q) := by
  refine ⟨h.tame.orSynchronize, fun ts hts hlen => ?_⟩
  unfold Parser.orSynchronize
  cases h.grows ts hts hlen with
  | same hresult hrest hreply =>
    rw [hreply]
    rcases hp : p ts with ⟨(_ | _ | _) | s, rest, ds⟩ <;> rw [hp] at hresult hrest
    · -- a broken statement is passed over in both lists
      cases grows_synchronize (r := r) rest with
      | same hresult' hrest' hreply' =>
        dsimp only
        rw [hreply']
        refine .same (fun heq => ?_) (hrest'.trans hrest) rfl
        rcases hsync : (synchronize rest).result with e | u <;> rw [hsync] at heq hresult'
        · cases heq
          exact hresult' rfl
        · cases heq
      | further hresult' hrest' hrest'' _ _ =>
        dsimp only
        rw [hresult']
        exact .further rfl hrest' hrest'' (List.append_nil ds).symm (List.forall_mem_nil _)
    · exact absurd rfl hresult
    · exact .same (fun heq => by cases heq) hrest rfl
    · exact .same (fun heq => by cases heq) hrest rfl
  | further hresult hrest hrest' hreply hmore =>
    rcases hp : p ts with ⟨e | s, rest, ds⟩ <;> rw [hp] at hresult hrest hreply
    · cases hresult
      rcases hq : q (ts ++ r) with ⟨(_ | _ | _) | s, rest', ds'⟩ <;> rw [hq] at hrest' hreply
      · exact .further rfl hrest ((synchronize_rest rest').1.trans hrest') hreply hmore
      all_goals exact .further rfl hrest hrest' hreply hmore
    · cases hresult

/-! ## Blocks, functions and classes

Here are loops over declarations. That a declaration takes a token, even if it is given up, is what their rounds are
counted by. -/

section Declarations

variable {declaration declaration' : Parser (Option SourceStmt)}
  (hdeclaration : Prolongs U r N declaration declaration')

/-- The test of a block stops at the end token. -/
theorem ne_eof_of_inside {t : Token} (ht : (t.kind != .rightBrace && t.kind != .eof) = true) : t.kind ≠ .eof := by
  simp only [Bool.and_eq_true, bne_iff_ne] at ht
  exact ht.2

/-- Rounds of a loop up to a closing brace. -/
theorem prolongs_inside {α : Type} {item item' : Parser α} (hitem : Prolongs U r N item item')
    (hadvances : Advances item N) :
    Prolongs U r N (sized (whileM block.inside item)) (sized (whileM block.inside item')) :=
  .sized (fun n => tame_whileM tame_inside hitem.tame n)
    (.whileM _ tame_inside rfl (fun _ _ => rfl) hitem (fun _ => ne_eof_of_inside) hadvances)

include hdeclaration

theorem prolongs_block (hadvances : Advances declaration N) :
    Prolongs U r N (block declaration) (block declaration') :=
  (prolongs_inside hdeclaration hadvances).bind fun _ => .expect fun _ => .pure _

theorem prolongs_function (hadvances : Advances declaration N) (what : String) :
    Prolongs U r N (function declaration what) (function declaration' what) := by
  refine .expect fun name => .expect fun _ => (Prolongs.untilParen (.token _ _) (by rfl)).bind fun params => ?_
  refine .expect fun _ => .expect fun _ => ?_
  exact (prolongs_block (hdeclaration.mono (by omega)) (hadvances.mono (by omega))).bind fun body => .pure _

/-- The superclass, then methods up to the brace. -/
theorem prolongs_classDeclaration (hadvances : Advances declaration N)
    (hmethods : Advances (function declaration "method") N) :
    Prolongs U r N (classDeclaration declaration) (classDeclaration declaration') := by
  have hfunction := prolongs_function hdeclaration hadvances "method"
  refine .expect fun name => .accept (.expect fun superclass => ?_) ?_
  all_goals
    refine .expect fun _ => (prolongs_inside (hfunction.mono ?_) (hmethods.mono ?_)).bind fun methods =>
      .expect fun _ => .pure _
    all_goals omega

end Declarations

/-! ## Every depth of nesting

Statements contain declarations and these contain statements. Both parsers are taken together, and the induction is on
the depth. -/

section Nested

variable {statement statement' : Parser SourceStmt} {declaration declaration' : Parser (Option SourceStmt)}
  (hstatement : Prolongs U r (N - 1) statement statement')
  (hdeclaration : Prolongs U r (N - 1) declaration declaration') (hadvances : Advances declaration (N - 1))
include hstatement hdeclaration hadvances

/-- The keyword in front decides on both lists which production is taken, and it is taken before the parsers below are
called. -/
theorem prolongs_statementWith :
    Prolongs U r N (statementWith ⟨statement, declaration⟩) (statementWith ⟨statement', declaration'⟩) := by
  refine .accept? (fun t _ => ?_) prolongs_expressionStatement
  dsimp only
  cases t.kind with
  | «for» => exact prolongs_forStatement hstatement
  | «if» => exact prolongs_ifStatement hstatement
  | print => exact prolongs_printStatement
  | «return» => exact prolongs_returnStatement t
  | «while» => exact prolongs_whileStatement hstatement
  | _ => exact (prolongs_block hdeclaration hadvances).map _

/-- A declaration by its keyword, otherwise a statement, with recovery around both. -/
theorem prolongs_declarationWith (hmethods : Advances (function declaration "method") (N - 1)) :
    Prolongs U r N (declarationWith ⟨statement, declaration⟩) (declarationWith ⟨statement', declaration'⟩) :=
  .accept (prolongs_classDeclaration hdeclaration hadvances hmethods) <|
    .accept ((prolongs_function hdeclaration hadvances _).map _) <|
      .accept prolongs_varDeclaration (prolongs_statementWith hstatement hdeclaration hadvances)

end Nested

/-- A parser advances if a prolonged one reads some token of every list with an end token: a result is the same with an
end token behind the list. -/
theorem advances_of_answers {p q : Parser α} (h : ∀ U eof, Prolongs U [eof] N p q)
    (hanswers : ∀ t ts, t.kind ≠ .eof → Ended (t :: ts) → (t :: ts).length < N + 1 →
      q.Answers (t :: ts) fun w _ _ _ => w ≠ []) : Advances p N := by
  intro t ts a ht hlen hresult
  -- a list without an end token has no answer, so one is put behind it
  let eof : Token := ⟨.eof, "", .nil, 1⟩
  have hend : Ended ((t :: ts) ++ [eof]) := ⟨eof, by simp, rfl⟩
  have hlonger : ((t :: ts) ++ [eof]).length < N + 1 := by
    rw [List.length_append, List.length_singleton]
    omega
  cases (h _ eof).grows (t :: ts) (List.Subset.refl _) hlen with
  | further hfailure => rw [hresult] at hfailure; cases hfailure
  | same _ _ hreply =>
    cases hanswers t (ts ++ [eof]) ht hend hlonger with
    | mismatch _ _ _ hq _ =>
      rw [List.cons_append, hq, hresult] at hreply
      cases hreply
    | @result w rest _ _ hts _ _ hq hne =>
      rw [List.cons_append, hq] at hreply
      have hrest : rest = (p (t :: ts)).rest ++ [eof] := congrArg Reply.rest hreply
      have hcount := congrArg List.length hts
      rw [hrest] at hcount
      simp only [List.length_append, List.length_cons, List.length_nil] at hcount
      have hpos := List.length_pos_iff.mpr hne
      rw [List.length_cons]
      omega

/-- What is prolonged at a depth, and what advances there. -/
structure Prolonging (n : Nat) : Prop where
  statement : ∀ U r m, n + r.length ≤ m → Prolongs U r n (nestedStatement n) (nestedStatement m)
  declaration : ∀ U r m, n + r.length ≤ m → Prolongs U r n (nestedDeclaration n) (nestedDeclaration m)
  advances : Advances (nestedDeclaration n) n

/-- The loops of the next depth have rounds enough, because declarations advance at this one. -/
theorem nested_prolonging (n : Nat) : Prolonging n := by
  induction n with
  | zero =>
    refine ⟨fun U r m _ => ⟨(tame_nested m).1, fun ts _ hlen => ?_⟩,
      fun U r m _ => ⟨(tame_nested m).2, fun ts _ hlen => ?_⟩, fun t ts a _ hlen => ?_⟩
    all_goals omega
  | succ n ih =>
    -- a class counts on it that its methods take tokens too
    have hmethods : Advances (function (nestedDeclaration n) "method") n := by
      refine advances_of_answers (q := function (nestedDeclaration (n + 1)) "method")
        (fun U eof => prolongs_function (ih.declaration U [eof] (n + 1) (Nat.le_refl _)) ih.advances "method")
        fun t ts _ hend hlen => ?_
      exact (function_answers "method" (nested_works (n + 1)).declaration hend hlen).mono fun _ _ _ _ _ _ h => h.1
    have hstatement : ∀ U r m, n + 1 + r.length ≤ m →
        Prolongs U r (n + 1) (nestedStatement (n + 1)) (nestedStatement m) := by
      intro U r m hnm
      obtain ⟨m, rfl⟩ : ∃ k, m = k + 1 := ⟨m - 1, by omega⟩
      exact prolongs_statementWith (ih.statement U r m (by omega)) (ih.declaration U r m (by omega)) ih.advances
    have hdeclaration : ∀ U r m, n + 1 + r.length ≤ m →
        Prolongs U r (n + 1) (nestedDeclaration (n + 1)) (nestedDeclaration m) := by
      intro U r m hnm
      obtain ⟨m, rfl⟩ : ∃ k, m = k + 1 := ⟨m - 1, by omega⟩
      exact (prolongs_declarationWith (ih.statement U r m (by omega)) (ih.declaration U r m (by omega)) ih.advances
        hmethods).orSynchronize
    refine ⟨hstatement, hdeclaration, ?_⟩
    refine advances_of_answers (q := nestedDeclaration (n + 2))
      (fun U eof => hdeclaration U [eof] (n + 2) (Nat.le_refl _)) fun t ts ht hend hlen => ?_
    exact ((nested_works (n + 2)).declaration t ts ht hend hlen).mono fun _ _ _ _ _ _ h => h.1

/-! ## Whole programs

The bounds are now those that the parsers take from their lists. -/

/-- A statement, however deeply nested. -/
def statement : Parser SourceStmt :=
  sized nestedStatement

/-- A declaration is read alike with more behind it. -/
theorem prolongs_declaration : Prolongs U r N declaration declaration :=
  .sized (fun n => (tame_nested n).2)
    fun n m hnm => ((nested_prolonging n).declaration U r m hnm).mono (Nat.min_le_left n N)

/-- A declaration takes a token, also where it is given up. -/
theorem advances_declaration : Advances declaration N :=
  fun t ts a ht _ hresult => (nested_prolonging ((t :: ts).length + 1)).advances t ts a ht (Nat.lt_succ_self _) hresult

/-- Declarations are read alike up to the end of the shorter list. -/
theorem prolongs_program : Prolongs U r N program program := by
  refine (Prolongs.sized (fun n => tame_whileM tame_notAtEnd tame_declaration n) ?_).bind fun _ => .pure _
  exact .whileM (fun t => !(t.kind == .eof)) tame_notAtEnd rfl (fun _ _ => rfl) prolongs_declaration
    (fun t ht => by simpa using ht) advances_declaration

end Parser

end LoxLang
