import Mathlib
import LoxLang.Proofs.Parse.ProgramComplete
import LoxLang.Proofs.Parse.Progress

/-!
# Boundaries of declarations

Between two declarations of a program the parser knows nothing but where it stands: what it goes on to read is what it
reads of the rest alone.

* **`Parser.ComesTo`** — the loop over the declarations of a list comes to a place, with what it has read on the way.
* **`Parser.parse_cons`** — one round of the loop. The bound on the rounds does not matter.
* **`parse_at_boundaries`** — parsing at the places that the loop comes to. The place behind a program without errors
  is one of them, unless an `else` stands there.
-/

namespace LoxLang

/-- What has been read of a list before what is read of the rest. -/
def Parsed.before (p q : Parsed) : Parsed :=
  ⟨p.program ++ q.program, p.diagnostics ++ q.diagnostics⟩

namespace Parsed

/-- Parses are put one behind the other like the lists in them. -/
theorem before_assoc (p q r : Parsed) : (p.before q).before r = p.before (q.before r) := by
  simp only [before, List.append_assoc]

end Parsed

namespace Parser

variable {ts q rest : List Token} {t : Token} {p : Parsed}

/-- The loop over the declarations of `ts` comes to the place where `q` is left. It has read the statements of `p`,
which are those of the declarations that were not broken, and has reported the diagnostics of `p`. -/
inductive ComesTo (ts : List Token) : List Token → Parsed → Prop where
  | start : ComesTo ts ts ⟨[], []⟩
  | declaration {t : Token} {q rest : List Token} {s? : Option SourceStmt} {ds : List Diagnostic} {p : Parsed}
      (h : ComesTo ts (t :: q) p) (hmore : t.kind ≠ .eof)
      (hread : Parser.declaration (t :: q) = ⟨.ok s?, rest, ds⟩) :
      ComesTo ts rest (p.before ⟨s?.toList, ds⟩)

/-! ## One round

The loop over declarations has a bound on its rounds. It is taken from the number of tokens and would be another one if
the list began later; so it has to be shown first that a bound that is large enough does not matter. -/

/-- The loop goes on unless the end token is in front. -/
theorem notAtEnd_cons (t : Token) (ts : List Token) :
    (do return !(← atEnd) : Parser Bool) (t :: ts) = ⟨.ok (!(t.kind == .eof)), t :: ts, []⟩ := rfl

/-- At the end token there is nothing to read. -/
theorem parse_eof (h : t.kind = .eof) (ts : List Token) : parse (t :: ts) = some ⟨[], []⟩ := by
  have hloop : whileM (return !(← atEnd)) Parser.declaration ((t :: ts).length + 1) (t :: ts)
      = ⟨.ok [], t :: ts, []⟩ :=
    whileM_none (by rw [notAtEnd_cons, h]; rfl)
  have hprogram : program (t :: ts) = ⟨.ok [], t :: ts, []⟩ := bind_ok' hloop rfl
  rw [parse, hprogram]

/-- A list is parsed exactly if the loop over its declarations ends. -/
theorem exists_loop (hend : Ended ts) :
    ∃ as eof rest ds, whileM (return !(← atEnd)) Parser.declaration (ts.length + 1) ts = ⟨.ok as, eof :: rest, ds⟩ ∧
      eof.kind = .eof ∧ parse ts = some ⟨as.filterMap id, ds⟩ := by
  have hanswers := declarations_answers (fun t => !(t.kind == .eof)) notAtEnd_cons (fun t ht => by simpa using ht)
    (proceeds_declaration (ts.length + 1)) hend (Nat.lt_succ_self _)
  cases hanswers with
  -- no declaration ends the loop
  | mismatch _ _ _ hp _ =>
    have hpersists := persists_whileM persists_notAtEnd persists_declaration (ts.length + 1) ts
    exact absurd (congrArg Reply.result hp) hpersists
  | @result w rest as ds _ _ hrest hloop hQ =>
    obtain ⟨eof, rest, rfl⟩ := hrest.exists_cons
    have heof : eof.kind = .eof := by simpa using hQ.1 eof rfl
    have hprogram : program ts = ⟨.ok (as.filterMap id), eof :: rest, ds ++ []⟩ := bind_ok' hloop rfl
    refine ⟨as, eof, rest, ds, hloop, heof, ?_⟩
    rw [parse, hprogram, List.append_nil]

/-- As many rounds as there are tokens are enough, and more make no difference. -/
theorem loop_eq (hend : Ended ts) {n : Nat} (hn : ts.length < n) :
    whileM (return !(← atEnd)) Parser.declaration n ts
      = whileM (return !(← atEnd)) Parser.declaration (ts.length + 1) ts := by
  have hprolongs : Prolongs ts [] (min (ts.length + 1) (ts.length + 1))
      (whileM (return !(← atEnd)) Parser.declaration (ts.length + 1))
      (whileM (return !(← atEnd)) Parser.declaration n) :=
    .whileM (fun t => !(t.kind == .eof)) tame_notAtEnd rfl notAtEnd_cons prolongs_declaration
      (fun t ht => by simpa using ht) advances_declaration _ _ hn
  obtain ⟨as, eof, rest, ds, hloop, -, -⟩ := exists_loop hend
  refine (hprolongs.eq (by rw [Nat.min_self]; exact Nat.lt_succ_self _) ?_).symm
  rw [hloop]
  exact fun h => by cases h

/-- Without an end token there is no parse. -/
theorem parse_eq_none (hnone : ∀ t ∈ ts, t.kind ≠ .eof) : parse ts = none := by
  have hresult := program_unended hnone
  rcases hprogram : program ts with ⟨_ | ss, rest, ds⟩
  · rw [parse, hprogram]
  · rw [hprogram] at hresult
    cases hresult

/-- Without an end token there is none either in what a declaration leaves. -/
theorem rest_suffix_of_declaration {s? : Option SourceStmt} {ds : List Diagnostic}
    (hread : Parser.declaration ts = ⟨.ok s?, rest, ds⟩) : rest <:+ ts := by
  have htame := (tame_declaration (U := ts) ts (List.Subset.refl ts)).1
  rwa [hread] at htame

/-- One round of the loop: a declaration, then what is read of the rest alone. -/
theorem parse_cons {s? : Option SourceStmt} {ds : List Diagnostic} (ht : t.kind ≠ .eof)
    (hread : Parser.declaration (t :: q) = ⟨.ok s?, rest, ds⟩) :
    parse (t :: q) = (parse rest).map (Parsed.before ⟨s?.toList, ds⟩) := by
  have hsuffix := rest_suffix_of_declaration hread
  by_cases hend : Ended (t :: q)
  · -- the rest is ended too, because the declaration stops at the end token at the latest
    have hrest : Ended rest := by
      cases proceeds_declaration _ t q ht hend (Nat.lt_succ_self _) with
      | mismatch _ _ _ hp _ => exact absurd (congrArg Reply.result hp) (persists_declaration (t :: q))
      | @result _ rest' _ _ _ _ hrest' hp _ =>
        rw [hread] at hp
        cases hp
        exact hrest'
    have hlen : rest.length < (t :: q).length := by
      have hadvances := advances_declaration (N := (t :: q).length + 1) t q s? ht (Nat.lt_succ_self _) (by rw [hread])
      rwa [hread] at hadvances
    obtain ⟨as, eof, rest', ds', hloop, -, hparse⟩ := exists_loop hrest
    have hfull : whileM (return !(← atEnd)) Parser.declaration ((t :: q).length + 1) (t :: q)
        = ⟨.ok (s? :: as), eof :: rest', ds ++ ds'⟩ := by
      refine whileM_more ?_ hread ?_
      · rw [notAtEnd_cons, beq_eq_false_iff_ne.mpr ht]
        rfl
      · rw [loop_eq hrest hlen, hloop]
    have hprogram : program (t :: q) = ⟨.ok ((s? :: as).filterMap id), eof :: rest', ds ++ ds' ++ []⟩ :=
      bind_ok' hfull rfl
    rw [parse, hprogram, hparse, List.append_nil]
    cases s? <;> rfl
  · -- without an end token neither list is parsed
    have hnone : ∀ u ∈ t :: q, u.kind ≠ .eof := fun u hu heof => hend ⟨u, hu, heof⟩
    rw [parse_eq_none hnone, parse_eq_none fun u hu => hnone u (hsuffix.subset hu), Option.map_none]

/-! ## Every round

By induction along the places that the loop comes to. What was read and complained about up to a place stands before
what the rest gives. -/

namespace ComesTo

/-- What is parsed from a place on is what the loop has read before it, and what the rest is parsed to. -/
theorem parse_eq (h : ComesTo ts q p) : parse ts = (parse q).map p.before := by
  induction h with
  | start => exact (Option.map_id_apply).symm
  | declaration _ hmore hread ih =>
    rw [ih, parse_cons hmore hread, Option.map_map]
    congr 1
    funext parsed
    exact (Parsed.before_assoc _ _ parsed).symm

/-- From one place to another one behind it. -/
theorem trans {r : List Token} {p' : Parsed} (h : ComesTo ts q p) (h' : ComesTo q r p') :
    ComesTo ts r (p.before p') := by
  induction h' with
  | start => simpa [Parsed.before] using h
  | declaration _ hmore hread ih =>
    rw [← Parsed.before_assoc]
    exact ih.declaration hmore hread

/-- The loop comes to the end of every list that has one. The induction is on the number of tokens, of which a
declaration takes at least one. -/
theorem exists_eof (hend : Ended ts) : ∃ eof rest p, eof.kind = .eof ∧ ComesTo ts (eof :: rest) p := by
  induction hn : ts.length using Nat.strongRecOn generalizing ts with
  | ind n ih =>
    obtain ⟨t, q, rfl⟩ := hend.exists_cons
    by_cases ht : t.kind = .eof
    · exact ⟨t, q, ⟨[], []⟩, ht, .start⟩
    · cases proceeds_declaration _ t q ht hend (Nat.lt_succ_self _) with
      | mismatch _ _ _ hp _ => exact absurd (congrArg Reply.result hp) (persists_declaration (t :: q))
      | @result _ rest s? ds _ _ hrest hread _ =>
        have hadvances := advances_declaration (N := (t :: q).length + 1) t q s? ht (Nat.lt_succ_self _)
          (by rw [hread])
        rw [hread] at hadvances
        obtain ⟨eof, rest', p, heof, hcomes⟩ := ih rest.length (hn ▸ hadvances) hrest rfl
        exact ⟨eof, rest', _, heof, (ComesTo.start.declaration ht hread).trans hcomes⟩

/-- If the place is the end, the parse is what has been read on the way. -/
theorem parse_of_eof {eof : Token} (h : ComesTo ts (eof :: rest) p) (heof : eof.kind = .eof) : parse ts = some p := by
  rw [h.parse_eq, parse_eof heof, Option.map_some, Parsed.before]
  simp

/-- Statements that are derived are read one after the other, whatever is left behind them, unless that is an `else`. -/
theorem of_derives {c : Clause} {w : List Token} (h : c.Derives .standard w) {u : Token} (hu : u.kind ≠ .else)
    (us : List Token) : ∀ ss, c = .declarations ss → ComesTo (w ++ u :: us) (u :: us) ⟨ss, []⟩ := by
  induction h with
  | noDeclaration =>
    rintro _ ⟨⟩
    exact .start
  | @moreDeclarations s o ss w₁ w₂ hs hss _ ih =>
    rintro _ ⟨⟩
    -- what follows a declaration begins another one, or is what stands behind all of them
    have hbehind : Behind o (w₂ ++ u :: us) := by
      rcases hss.starts with rfl | ⟨v, w', rfl, hv⟩
      · exact behind_cons hu us
      · refine behind_cons (fun h => ?_) _
        rw [h] at hv
        exact absurd hv (by decide)
    have hread : Parser.declaration (w₁ ++ (w₂ ++ u :: us)) = ⟨.ok (some s), w₂ ++ u :: us, []⟩ :=
      (readsEach_declaration (d := .standard) _ _ _ _ (Nat.lt_succ_self _) fun n hn =>
        clauseReads_of_derives rfl hs n _ hn hbehind).eq rfl rfl
    have htail := ih ss rfl
    obtain ⟨v, w', rfl, hv⟩ := hs.starts
    have hne : v.kind ≠ .eof := by
      intro h
      rw [h] at hv
      exact absurd hv (by decide)
    rw [List.append_assoc]
    exact (ComesTo.start.declaration hne hread).trans htail
  | _ => rintro _ ⟨⟩

end ComesTo

end Parser

/-- **Parsing at boundaries.** Where one list is parsed without diagnostics and the next one does not begin with
`else`, the two together are parsed to the statements of both, with the diagnostics of the second. Wherever the loop
over the declarations of a list stands, also behind a broken one, the rest is parsed as if it stood alone. And the loop
makes what a list is parsed to: that is what it has read when it comes to an end token. -/
theorem parse_at_boundaries :
    (∀ (a b : List Token) (eof eof' : Token) (ss : List SourceStmt), (∀ t ∈ a, t.kind ≠ .eof) →
      (∀ t ∈ b, t.kind ≠ .eof) → eof.kind = .eof → eof'.kind = .eof → parse (a ++ [eof]) = some ⟨ss, []⟩ →
      (∀ t ∈ b.head?, t.kind ≠ .else) →
      ∃ ss' ds, parse (b ++ [eof']) = some ⟨ss', ds⟩ ∧ parse (a ++ (b ++ [eof'])) = some ⟨ss ++ ss', ds⟩) ∧
    (∀ (ts q : List Token) (p : Parsed), Parser.ComesTo ts q p →
      parse ts = (parse q).map fun rest => ⟨p.program ++ rest.program, p.diagnostics ++ rest.diagnostics⟩) ∧
    ∀ (ts : List Token) (p : Parsed),
      parse ts = some p ↔ ∃ eof rest, eof.kind = .eof ∧ Parser.ComesTo ts (eof :: rest) p := by
  refine ⟨fun a b eof eof' ss ha hb heof heof' hparse helse => ?_, fun ts q p h => h.parse_eq, fun ts p => ⟨?_, ?_⟩⟩
  · obtain ⟨ss', ds, hrest, -⟩ := parse_answers hb heof'
    obtain ⟨u, us, hus⟩ : ∃ u us, b ++ [eof'] = u :: us := List.exists_cons_of_ne_nil (by simp)
    have hu : u.kind ≠ .else := by
      cases b with
      | nil =>
        obtain ⟨rfl, -⟩ := List.cons.inj hus
        rw [heof']
        decide
      | cons v b =>
        obtain ⟨rfl, -⟩ := List.cons.inj hus
        exact helse v rfl
    obtain ⟨_, _, hread, -, hderived⟩ := parse_answers ha heof
    rw [hparse] at hread
    cases hread
    -- without diagnostics the first list is derived, and so it is read in front of whatever follows
    have hderives : Program .standard ss a := hderived .standard Dialect.excuses_nil
    refine ⟨ss', ds, hrest, ?_⟩
    rw [hus, (Parser.ComesTo.of_derives hderives hu us ss rfl).parse_eq, ← hus, hrest]
    rfl
  · intro hparse
    obtain ⟨eof, rest, p', heof, hcomes⟩ := Parser.ComesTo.exists_eof (ended_of_parse hparse)
    rw [hcomes.parse_of_eof heof] at hparse
    cases hparse
    exact ⟨eof, rest, heof, hcomes⟩
  · rintro ⟨eof, rest, heof, hcomes⟩
    exact hcomes.parse_of_eof heof

/-- An `if` without `else` in front of a broken declaration and a block. The loop comes to the place behind the `if`, and
what it makes of the rest is what the rest is parsed to alone. -/
theorem parse_at_boundaries_broken :
    let token (kind : Kind) : Token := ⟨kind, "", .nil, 1⟩
    let a := [Kind.if, .leftParen, .nil, .rightParen, .nil, .semicolon].map token
    let b := [Kind.var, .semicolon, .leftBrace, .rightBrace].map token
    let branch : SourceStmt := .if (.literal .nil) (.expression (.literal .nil)) none
    let broken : Parsed := ⟨[.block []], [.ofToken .parse (.expectedToken "variable name") (token .semicolon)]⟩
    (∀ t ∈ a, t.kind ≠ .eof) ∧ (∀ t ∈ b, t.kind ≠ .eof) ∧ (token .eof).kind = .eof ∧
      (∀ t ∈ b.head?, t.kind ≠ .else) ∧ parse (a ++ [token .eof]) = some ⟨[branch], []⟩ ∧
      parse (b ++ [token .eof]) = some broken ∧
      parse (a ++ (b ++ [token .eof])) = some ⟨[branch] ++ broken.program, broken.diagnostics⟩ ∧
      ∃ eof rest, eof.kind = .eof ∧
        Parser.ComesTo (a ++ (b ++ [token .eof])) (eof :: rest) ⟨[branch] ++ broken.program, broken.diagnostics⟩ := by
  intro token a b branch broken
  obtain ⟨hjoins, -, hcomes⟩ := parse_at_boundaries
  have ha : ∀ t ∈ a, t.kind ≠ .eof := by simp [a, token]
  have hb : ∀ t ∈ b, t.kind ≠ .eof := by simp [b, token]
  have hhead : ∀ t ∈ b.head?, t.kind ≠ .else := by simp [b, token]
  -- the parts are parsed by evaluation, and the theorem joins them
  have hfirst : parse (a ++ [token .eof]) = some ⟨[branch], []⟩ := by cbv
  have hsecond : parse (b ++ [token .eof]) = some broken := by cbv
  obtain ⟨ss, ds, hrest, hboth⟩ := hjoins a b (token .eof) (token .eof) [branch] ha hb rfl rfl hfirst hhead
  have hbroken : ⟨ss, ds⟩ = broken := Option.some.inj (hrest.symm.trans hsecond)
  obtain ⟨rfl, rfl⟩ := Parsed.mk.inj hbroken
  exact ⟨ha, hb, rfl, hhead, hfirst, hsecond, hboth, (hcomes _ _).mp hboth⟩

end LoxLang
