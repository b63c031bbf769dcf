import LoxLang.Proofs.Parse.Grammar

/-!
# What parsers answer

Steps of parsers on a list of tokens, and a rule for each way to compose them.

* The equations (`bind_ok`, `expect_pos`, …) compute a run step by step, when its tokens are known.
* **`Reply.Gives`** — a reply has a result, and complaints that a dialect excuses.
* **`Parser.Answers p ts Q`** — on the tokens `ts` the parser `p` comes to an answer: it gives a result of which
  `Q` holds, or it gives up with a complaint about the syntax. Either way it leaves the tokens from some point
  on, up to which there is no end token.
-/

namespace LoxLang

/-! ## Complaints that a dialect puts up with

The parser reports too many items and targets that cannot be assigned to, and reads on. What it builds then is derived
in a grammar without those limits. -/

namespace Dialect

/-- The complaints that are none in the dialect. -/
def excuses (d : Dialect) : Cause → Bool
  | .tooManyArguments _ | .tooManyParameters _ => d.unlimited
  | .invalidAssignmentTarget => d.anyTarget
  | _ => false

def Excuses (d : Dialect) (ds : List Diagnostic) : Prop :=
  ∀ x ∈ ds, d.excuses x.cause = true

variable {d : Dialect} {ds ds' : List Diagnostic}

@[simp] theorem excuses_nil : d.Excuses [] := by
  intro x hx
  cases hx

/-- Complaints are excused one by one. -/
@[simp] theorem excuses_append : d.Excuses (ds ++ ds') ↔ d.Excuses ds ∧ d.Excuses ds' := by
  simp only [Excuses, List.mem_append]
  exact ⟨fun h => ⟨fun x hx => h x (.inl hx), fun x hx => h x (.inr hx)⟩,
    fun h x hx => hx.elim (h.1 x) (h.2 x)⟩

/-- The relaxed grammar excuses whatever some grammar excuses. -/
theorem Excuses.relaxed (h : d.Excuses ds) : Dialect.relaxed.Excuses ds := by
  intro x hx
  have hcause := h x hx
  unfold excuses at hcause ⊢
  split at hcause
  · rfl
  · rfl
  · rfl
  · cases hcause

/-- A dialect without exceptions excuses nothing. -/
theorem Excuses.eq_nil (h : d.Excuses ds) (hlimited : d.unlimited = false) (htarget : d.anyTarget = false) :
    ds = [] := by
  refine List.eq_nil_iff_forall_not_mem.mpr fun x hx => ?_
  have hcause := h x hx
  unfold excuses at hcause
  split at hcause <;> simp_all

end Dialect

/-! ## Lists with an end token

What the scanner gives ends with an end token, and the parser stops in front of it. So it never comes
to the end of the list itself, where there would be no token to look at. -/

/-- There is an end token in the list. -/
def Ended (ts : List Token) : Prop :=
  ∃ t ∈ ts, t.kind = .eof

/-- There is a token in front. -/
theorem Ended.exists_cons {ts : List Token} (h : Ended ts) : ∃ t ts', ts = t :: ts' := by
  obtain ⟨t, ht, -⟩ := h
  exact List.exists_cons_of_ne_nil (List.ne_nil_of_mem ht)

/-- A token that is not the end token may be taken. -/
theorem Ended.tail {t : Token} {ts : List Token} (h : Ended (t :: ts)) (ht : t.kind ≠ .eof) :
    Ended ts := by
  obtain ⟨u, hu, heof⟩ := h
  rcases List.mem_cons.mp hu with rfl | hu
  · exact absurd heof ht
  · exact ⟨u, hu, heof⟩

theorem Ended.cons {ts : List Token} (h : Ended ts) (t : Token) : Ended (t :: ts) := by
  obtain ⟨u, hu, heof⟩ := h
  exact ⟨u, List.mem_cons_of_mem t hu, heof⟩

/-- A result, with complaints that are none in the dialect. -/
def Reply.Gives {α : Type} (d : Dialect) (reply : Reply α) (a : α) (rest : List Token) : Prop :=
  ∃ ds, d.Excuses ds ∧ reply = ⟨.ok a, rest, ds⟩

/-- A result without complaints is a result in every dialect. -/
theorem Reply.Gives.silent {α : Type} {d : Dialect} {reply : Reply α} {a : α} {rest : List Token}
    (h : reply = ⟨.ok a, rest, []⟩) : reply.Gives d a rest :=
  ⟨[], Dialect.excuses_nil, h⟩

/-- In a dialect without exceptions nothing is complained about. -/
theorem Reply.Gives.eq {α : Type} {d : Dialect} {reply : Reply α} {a : α} {rest : List Token}
    (h : reply.Gives d a rest) (hlimited : d.unlimited = false) (htarget : d.anyTarget = false) :
    reply = ⟨.ok a, rest, []⟩ := by
  obtain ⟨ds, hds, hreply⟩ := h
  rw [hreply, hds.eq_nil hlimited htarget]

namespace Parser

variable {α β : Type}

/-- To read with parsers one behind another obeys the laws of monads: what is complained about comes together in
order, however the parsers are grouped. -/
instance : LawfulMonad Parser := by
  refine LawfulMonad.mk' Parser (fun p => ?_) (fun a f => ?_) fun p f g => ?_
  · funext ts
    show Parser.bind p (fun a => Parser.pure a) ts = p ts
    unfold Parser.bind Parser.pure
    rcases p ts with ⟨_ | a, rest, ds⟩
    · rfl
    · simp
  · rfl
  · funext ts
    show Parser.bind (Parser.bind p f) g ts = Parser.bind p (fun a => Parser.bind (f a) g) ts
    unfold Parser.bind
    rcases p ts with ⟨_ | a, rest, ds⟩
    · rfl
    · dsimp only
      rcases f a rest with ⟨_ | b, rest', ds'⟩
      · rfl
      · simp

/-! ## Steps

Each equation has the token in front on the left, so that a run on known tokens is computed by rewriting. -/

/-- A parser that was silent has only handed on its result. -/
theorem bind_ok {p : Parser α} {f : α → Parser β} {ts rest : List Token} {a : α}
    (h : p ts = ⟨.ok a, rest, []⟩) : (p >>= f) ts = f a rest := by
  change Parser.bind p f ts = _
  simp only [Parser.bind, h, List.nil_append]

/-- Complaints of one parser come before those of the one behind it. -/
theorem bind_ok' {p : Parser α} {f : α → Parser β} {ts rest rest' : List Token} {a : α} {b : β}
    {ds ds' : List Diagnostic} (h : p ts = ⟨.ok a, rest, ds⟩) (hf : f a rest = ⟨.ok b, rest', ds'⟩) :
    (p >>= f) ts = ⟨.ok b, rest', ds ++ ds'⟩ := by
  change Parser.bind p f ts = _
  simp only [Parser.bind, h, hf]

/-- What fails is not followed by anything. -/
theorem bind_error {p : Parser α} {f : α → Parser β} {ts rest : List Token} {e : ParseFailure}
    {ds : List Diagnostic} (h : p ts = ⟨.error e, rest, ds⟩) : (p >>= f) ts = ⟨.error e, rest, ds⟩ := by
  change Parser.bind p f ts = _
  simp only [Parser.bind, h]

/-- What the second parser complains about comes behind what the first one has complained about. -/
theorem bind_reply {p : Parser α} {f : α → Parser β} {ts rest : List Token} {a : α} {ds : List Diagnostic}
    (h : p ts = ⟨.ok a, rest, ds⟩) :
    (p >>= f) ts = { f a rest with diagnostics := ds ++ (f a rest).diagnostics } := by
  change Parser.bind p f ts = _
  simp only [Parser.bind, h]

/-- Nothing is read and nothing is said. -/
theorem pure_apply (a : α) (ts : List Token) : (pure a : Parser α) ts = ⟨.ok a, ts, []⟩ := rfl

/-- The token in front is shown and stays. -/
theorem peek_cons (t : Token) (ts : List Token) : peek (t :: ts) = ⟨.ok t, t :: ts, []⟩ := rfl

theorem check_cons (kind : Kind) (t : Token) (ts : List Token) :
    check kind (t :: ts) = ⟨.ok (t.kind == kind), t :: ts, []⟩ := rfl

/-- The end is told by the kind of the token in front. -/
theorem atEnd_cons (t : Token) (ts : List Token) : atEnd (t :: ts) = ⟨.ok (t.kind == .eof), t :: ts, []⟩ :=
  rfl

/-- A token of one of the kinds is taken. -/
theorem accept?_pos {kinds : List Kind} {t : Token} (h : t.kind ∈ kinds) (ts : List Token) :
    accept? kinds (t :: ts) = ⟨.ok (some t), ts, []⟩ := by
  rw [accept?, if_pos h]

theorem accept?_neg {kinds : List Kind} {t : Token} (h : t.kind ∉ kinds) (ts : List Token) :
    accept? kinds (t :: ts) = ⟨.ok none, t :: ts, []⟩ := by
  rw [accept?, if_neg h]

/-- A token of the kind is taken. -/
theorem accept_pos {kind : Kind} {t : Token} (h : t.kind = kind) (ts : List Token) :
    accept kind (t :: ts) = ⟨.ok true, ts, []⟩ :=
  bind_ok (accept?_pos (by simp [h]) ts)

theorem accept_neg {kind : Kind} {t : Token} (h : t.kind ≠ kind) (ts : List Token) :
    accept kind (t :: ts) = ⟨.ok false, t :: ts, []⟩ :=
  bind_ok (accept?_neg (by simp [h]) ts)

/-- The token that is expected is taken, without a complaint. -/
theorem expect_pos {kind : Kind} {t : Token} (h : t.kind = kind) (expected : String) (ts : List Token) :
    expect kind expected (t :: ts) = ⟨.ok t, ts, []⟩ :=
  bind_ok (accept?_pos (by simp [h]) ts)

/-- The complaint names the token in front, which stays. -/
theorem reject_cons (cause : Cause) (t : Token) (ts : List Token) :
    (reject cause : Parser α) (t :: ts) = ⟨.error .mismatch, t :: ts, [.ofToken .parse cause t]⟩ := rfl

/-- Another token than the expected one is rejected. -/
theorem expect_neg {kind : Kind} {t : Token} (h : t.kind ≠ kind) (expected : String) (ts : List Token) :
    expect kind expected (t :: ts)
      = ⟨.error .mismatch, t :: ts, [.ofToken .parse (.expectedToken expected) t]⟩ := by
  unfold expect
  rw [bind_ok (accept?_neg (by simp [h]) ts)]
  exact reject_cons _ t ts

/-- One round of items between commas: the complaint about the next item, if there is one, comes first. -/
theorem commaSeparated_succ (tooMany : Cause) (item : Parser α) (n count : Nat) :
    commaSeparated tooMany item (n + 1) count =
      ((if maxArguments ≤ count then report tooMany else pure ()) >>= fun _ => do
        let a ← item
        if ← accept .comma then
          return a :: (← commaSeparated tooMany item n (count + 1))
        else
          return [a]) := by
  rw [commaSeparated]
  split <;> rfl

/-! ## Results with complaints that are excused

These are for the direction from the grammar to the parser: the tokens are known, and so is the result. -/

section Gives

variable {d : Dialect} {p : Parser α} {f : α → Parser β} {ts rest rest' : List Token} {a : α} {b : β}

/-- A value is returned without complaints. -/
theorem gives_pure (a : α) (ts : List Token) : ((pure a : Parser α) ts).Gives d a ts :=
  .silent rfl

theorem gives_bind (hp : (p ts).Gives d a rest) (hf : (f a rest).Gives d b rest') :
    ((p >>= f) ts).Gives d b rest' := by
  obtain ⟨ds, hds, hp⟩ := hp
  obtain ⟨ds', hds', hf⟩ := hf
  exact ⟨ds ++ ds', Dialect.excuses_append.mpr ⟨hds, hds'⟩, bind_ok' hp hf⟩

/-- A result of two parsers is one of the second on what the first has left. -/
theorem gives_of_bind (h : ((p >>= f) ts).Gives d b rest) :
    ∃ a rest', (p ts).Gives d a rest' ∧ (f a rest').Gives d b rest := by
  obtain ⟨ds, hds, h⟩ := h
  rcases hp : p ts with ⟨_ | a, rest', ds₁⟩
  · rw [bind_error hp] at h
    cases h
  · rw [bind_reply hp] at h
    rcases hf : f a rest' with ⟨result, rest'', ds₂⟩
    rw [hf] at h
    cases h
    obtain ⟨hds₁, hds₂⟩ := Dialect.excuses_append.mp hds
    exact ⟨a, rest', ⟨ds₁, hds₁, rfl⟩, ds₂, hds₂, hf⟩

/-- A complaint that the dialect excuses does not stand in the way of a result. -/
theorem reportOn_gives {cause : Cause} (hcause : d.excuses cause = true) (t : Token) (ts : List Token) :
    (reportOn t cause ts).Gives d () ts := by
  refine ⟨_, fun x hx => ?_, rfl⟩
  obtain rfl := List.mem_singleton.mp hx
  exact hcause

end Gives

/-! ## Answers

These are for the direction from the parser to the grammar: the tokens are not known, and which of them were read comes
out with the result. -/

/-- What becomes of a parser on a list of tokens. -/
inductive Answers (p : Parser α) (ts : List Token)
    (Q : List Token → α → List Token → List Diagnostic → Prop) : Prop where
  | result {w rest : List Token} {a : α} {ds : List Diagnostic} (hts : ts = w ++ rest)
      (hw : ∀ t ∈ w, t.kind ≠ .eof) (hrest : Ended rest) (hp : p ts = ⟨.ok a, rest, ds⟩)
      (hQ : Q w a rest ds)
  | mismatch {w rest : List Token} {ds : List Diagnostic} (hts : ts = w ++ rest)
      (hw : ∀ t ∈ w, t.kind ≠ .eof) (hrest : Ended rest) (hp : p ts = ⟨.error .mismatch, rest, ds⟩)
      (hds : ¬ Dialect.relaxed.Excuses ds)

variable {p : Parser α} {f : α → Parser β} {ts : List Token}
  {P : List Token → α → List Token → List Diagnostic → Prop}
  {Q : List Token → β → List Token → List Diagnostic → Prop}

/-- What is known of an answer may be weakened. -/
theorem Answers.mono {P' : List Token → α → List Token → List Diagnostic → Prop} (h : p.Answers ts P)
    (himp : ∀ w a rest ds, ts = w ++ rest → Ended rest → P w a rest ds → P' w a rest ds) :
    p.Answers ts P' := by
  cases h with
  | result hts hw hrest hp hP => exact .result hts hw hrest hp (himp _ _ _ _ hts hrest hP)
  | mismatch hts hw hrest hp hds => exact .mismatch hts hw hrest hp hds

theorem Answers.pure {a : α} (hend : Ended ts) (h : P [] a ts []) : (pure a : Parser α).Answers ts P :=
  .result rfl (by simp) hend rfl h

/-- One parser behind another: the second answers on what the first has left. -/
theorem Answers.bind (hp : p.Answers ts P)
    (hf : ∀ w a rest ds, ts = w ++ rest → Ended rest → P w a rest ds →
      (f a).Answers rest fun w' b rest' ds' => Q (w ++ w') b rest' (ds ++ ds')) :
    (p >>= f).Answers ts Q := by
  cases hp with
  | mismatch hts hw hrest hp hds => exact .mismatch hts hw hrest (bind_error hp) hds
  | @result w rest a ds hts hw hrest hp hP =>
    have hbind : ∀ reply, f a rest = reply →
        (p >>= f) ts = { reply with diagnostics := ds ++ reply.diagnostics } := by
      rintro reply rfl
      exact bind_reply hp
    have hall : ∀ {w' : List Token}, (∀ t ∈ w', t.kind ≠ .eof) → ∀ t ∈ w ++ w', t.kind ≠ .eof := by
      intro w' hw' t ht
      rcases List.mem_append.mp ht with ht | ht
      · exact hw t ht
      · exact hw' t ht
    -- what both have read comes together, and so do their complaints
    cases hf w a rest ds hts hrest hP with
    | result hts' hw' hrest' hp' hQ =>
      exact .result (by rw [hts, hts', List.append_assoc]) (hall hw') hrest' (hbind _ hp') hQ
    | mismatch hts' hw' hrest' hp' hds' =>
      refine .mismatch (by rw [hts, hts', List.append_assoc]) (hall hw') hrest' (hbind _ hp') ?_
      exact fun h => hds' (Dialect.excuses_append.mp h).2

/-- A step that takes a token and nothing else. -/
theorem answers_take {q : Parser β} {t : Token} {ts : List Token} (ht : t.kind ≠ .eof)
    {p' : Parser β} (hstep : p' (t :: ts) = q ts)
    (hq : q.Answers ts fun w b rest ds => Q (t :: w) b rest ds) : p'.Answers (t :: ts) Q := by
  have hall : ∀ {w : List Token}, (∀ u ∈ w, u.kind ≠ .eof) → ∀ u ∈ t :: w, u.kind ≠ .eof := by
    intro w hw u hu
    rcases List.mem_cons.mp hu with rfl | hu
    · exact ht
    · exact hw u hu
  cases hq with
  | result hts hw hrest hp hQ =>
    exact .result (by rw [hts, List.cons_append]) (hall hw) hrest (by rw [hstep, hp]) hQ
  | mismatch hts hw hrest hp hds =>
    exact .mismatch (by rw [hts, List.cons_append]) (hall hw) hrest (by rw [hstep, hp]) hds

theorem answers_look {q p' : Parser β} (hstep : p' ts = q ts) (hq : q.Answers ts Q) : p'.Answers ts Q := by
  cases hq with
  | result hts hw hrest hp hQ => exact .result hts hw hrest (by rw [hstep, hp]) hQ
  | mismatch hts hw hrest hp hds => exact .mismatch hts hw hrest (by rw [hstep, hp]) hds

/-- A parser that needs a bound gets one more than there are tokens. -/
theorem answers_sized {q : Nat → Parser β} (h : (q (ts.length + 1)).Answers ts Q) :
    (sized q).Answers ts Q :=
  answers_look (q := q (ts.length + 1)) rfl h

/-- To give up is an answer, if the complaint is one that nothing excuses. -/
theorem answers_reject {cause : Cause} (hend : Ended ts)
    (hcause : Dialect.relaxed.excuses cause = false) : (reject cause : Parser β).Answers ts Q := by
  obtain ⟨t, ts', rfl⟩ := hend.exists_cons
  refine .mismatch (w := []) rfl (by simp) hend (reject_cons cause t ts') fun h => ?_
  have := h _ (List.mem_singleton_self _)
  rw [Diagnostic.ofToken, hcause] at this
  cases this

/-- To expect a token is to have it in front, or to give up. -/
theorem answers_expect {kind : Kind} {expected : String} {f : Token → Parser β} (hend : Ended ts)
    (hkind : kind ≠ .eof)
    (hf : ∀ t ts', ts = t :: ts' → t.kind = kind → Ended ts' →
      (f t).Answers ts' fun w b rest ds => Q (t :: w) b rest ds) :
    (expect kind expected >>= f).Answers ts Q := by
  obtain ⟨t, ts', rfl⟩ := hend.exists_cons
  by_cases ht : t.kind = kind
  · have hne : t.kind ≠ .eof := fun h => hkind (ht.symm.trans h)
    exact answers_take hne (bind_ok (expect_pos ht expected ts')) (hf t ts' rfl ht (hend.tail hne))
  · refine .mismatch (w := []) rfl (by simp) hend (bind_error (expect_neg ht expected ts')) fun h => ?_
    have := h _ (List.mem_singleton_self _)
    cases this

/-- To accept a token of some kinds is to take it, or to see that none is in front. -/
theorem answers_accept? {kinds : List Kind} {f : Option Token → Parser β} (hend : Ended ts)
    (hkinds : .eof ∉ kinds)
    (hsome : ∀ t ts', ts = t :: ts' → t.kind ∈ kinds → Ended ts' →
      (f (some t)).Answers ts' fun w b rest ds => Q (t :: w) b rest ds)
    (hnone : (∀ t ∈ ts.head?, t.kind ∉ kinds) → (f none).Answers ts Q) :
    (accept? kinds >>= f).Answers ts Q := by
  obtain ⟨t, ts', rfl⟩ := hend.exists_cons
  by_cases ht : t.kind ∈ kinds
  · have hne : t.kind ≠ .eof := fun h => hkinds (h ▸ ht)
    exact answers_take hne (bind_ok (accept?_pos ht ts')) (hsome t ts' rfl ht (hend.tail hne))
  · refine answers_look (bind_ok (accept?_neg ht ts')) (hnone ?_)
    rintro u hu
    rw [List.head?_cons, Option.mem_some_iff] at hu
    exact hu ▸ ht

/-- The token in front is taken if it is of the kind; otherwise the rest is told that it is not. -/
theorem answers_accept {kind : Kind} {f : Bool → Parser β} (hend : Ended ts) (hkind : kind ≠ .eof)
    (htrue : ∀ t ts', ts = t :: ts' → t.kind = kind → Ended ts' →
      (f true).Answers ts' fun w b rest ds => Q (t :: w) b rest ds)
    (hfalse : (∀ t ∈ ts.head?, t.kind ≠ kind) → (f false).Answers ts Q) :
    (accept kind >>= f).Answers ts Q := by
  obtain ⟨t, ts', rfl⟩ := hend.exists_cons
  by_cases ht : t.kind = kind
  · have hne : t.kind ≠ .eof := fun h => hkind (ht.symm.trans h)
    exact answers_take hne (bind_ok (accept_pos ht ts')) (htrue t ts' rfl ht (hend.tail hne))
  · refine answers_look (bind_ok (accept_neg ht ts')) (hfalse ?_)
    rintro u hu
    rw [List.head?_cons, Option.mem_some_iff] at hu
    exact hu ▸ ht

/-- The rest is told whether the token in front is of the kind. -/
theorem answers_check {kind : Kind} {f : Bool → Parser β} (hend : Ended ts)
    (htrue : (∀ t ∈ ts.head?, t.kind = kind) → (f true).Answers ts Q)
    (hfalse : (∀ t ∈ ts.head?, t.kind ≠ kind) → (f false).Answers ts Q) :
    (check kind >>= f).Answers ts Q := by
  obtain ⟨t, ts', rfl⟩ := hend.exists_cons
  refine answers_look (bind_ok (check_cons kind t ts')) ?_
  by_cases ht : t.kind = kind
  · rw [beq_iff_eq.mpr ht]
    exact htrue (by simpa using ht)
  · rw [beq_eq_false_iff_ne.mpr ht]
    exact hfalse (by simpa using ht)

end Parser

end LoxLang
