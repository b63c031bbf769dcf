import LoxLang.Proofs.Parse.Acceptance
import LoxLang.Proofs.Parse.Progress
import LoxLang.Proofs.Parse.Viable
import Mathlib.Data.List.Induction

/-!
# The first complaint comes as early as possible

* **`first_misfit_earliest`** — the parser complains that a token does not fit as soon as the tokens read so far are not
  the beginning of a sentence, and not before.

The argument goes along the beginnings of the tokens. What a parser complains about on one of them it complains about
on every longer one, and the new complaints are about the new tokens. As long as no token has been found not to fit, the
tokens can become a sentence; and on a sentence there is no such complaint.
-/

namespace LoxLang

/-- The first complaint that a token does not fit. -/
def firstMisfit (ds : List Diagnostic) : Option Diagnostic :=
  ds.find? (·.cause.isMisfit)

/-- The token with the index `i` makes the parser complain for the first time that a token does not fit. On the tokens
before there is no such complaint, and with that token behind them the first one is `d`. -/
def FirstMisfitAt (ts : List Token) (i : Nat) (d : Diagnostic) : Prop :=
  firstMisfit (Parser.program (ts.take i)).diagnostics = none ∧
    firstMisfit (Parser.program (ts.take (i + 1))).diagnostics = some d

/-- Tokens with which a sentence of the relaxed grammar begins. -/
def BeginsSentence (w : List Token) : Prop :=
  ∃ v ss, Program .relaxed ss (w ++ v)

/-- No dialect excuses that a token does not fit. -/
theorem Cause.excuses_of_isMisfit {cause : Cause} (h : cause.isMisfit = true) :
    Dialect.relaxed.excuses cause = false := by
  cases cause <;> first | rfl | cases h

namespace Parser

variable {ts r : List Token}

/-- What is complained about does not depend on what is behind the list, and complaints that come with further tokens
are about these. -/
theorem program_diagnostics_append (ts r : List Token) : ∃ more,
    (program (ts ++ r)).diagnostics = (program ts).diagnostics ++ more ∧ Diagnostic.About r more := by
  cases (prolongs_program (N := ts.length + 1)).grows ts (List.Subset.refl (ts ++ r)) (Nat.lt_succ_self _) with
  | same _ _ hreply => exact ⟨[], by rw [hreply, List.append_nil], List.forall_mem_nil _⟩
  | further _ _ _ hreply hmore => exact ⟨_, hreply, hmore⟩

/-- Without complaints that a token does not fit, the relaxed grammar excuses all of them. -/
theorem excuses_of_firstMisfit (h : firstMisfit (program ts).diagnostics = none) :
    Dialect.relaxed.Excuses (program ts).diagnostics := by
  intro d hd
  obtain ⟨cause, t, rfl, hcause⟩ := tame_program.about (List.Subset.refl ts) d hd
  have hfits := List.find?_eq_none.mp h _ hd
  exact hcause.resolve_right fun hmisfit => hfits hmisfit.1

/-- Complaints that are excused are none of this kind. -/
theorem firstMisfit_eq_none (h : Dialect.relaxed.Excuses (program ts).diagnostics) :
    firstMisfit (program ts).diagnostics = none := by
  refine List.find?_eq_none.mpr fun d hd hmisfit => ?_
  have hexcused := h d hd
  rw [Cause.excuses_of_isMisfit hmisfit] at hexcused
  cases hexcused

/-- The first complaint stays the first when there are further tokens. -/
theorem firstMisfit_append {d : Diagnostic} (h : firstMisfit (program ts).diagnostics = some d) (r : List Token) :
    firstMisfit (program (ts ++ r)).diagnostics = some d := by
  obtain ⟨more, happend, -⟩ := program_diagnostics_append ts r
  unfold firstMisfit at h ⊢
  rw [happend, List.find?_append, h, Option.some_or]

/-- As long as every token has fitted, a sentence begins with the tokens. -/
theorem begins_of_firstMisfit (hw : ∀ t ∈ ts, t.kind ≠ .eof)
    (h : firstMisfit (program ts).diagnostics = none) : BeginsSentence ts := by
  have hresult := program_unended hw
  cases viable_program.reply ts with
  | broken hds => exact absurd (excuses_of_firstMisfit h) hds
  | read hread => rw [hread] at hresult; cases hresult
  | unfinished _ hsentence => exact ⟨_, _, hsentence⟩
  | exhausted hexhausted => rw [hexhausted] at hresult; cases hresult

/-- The complaints of a parse are those of the parser of programs. -/
theorem diagnostics_of_parse {parsed : Parsed} (h : parse ts = some parsed) :
    (program ts).diagnostics = parsed.diagnostics := by
  unfold parse at h
  split at h
  next ss rest ds hprogram =>
    cases h
    rw [hprogram]
  next => cases h

/-- With a token that does not fit, there is no sentence any more. -/
theorem not_begins_of_firstMisfit {d : Diagnostic} (h : firstMisfit (program ts).diagnostics = some d) :
    ¬ BeginsSentence ts := by
  rintro ⟨v, ss, hsentence⟩
  obtain ⟨ss', ds, hparse, hds⟩ := parse_excuses (show Token.kind ⟨.eof, "", .nil, 1⟩ = .eof from rfl) hsentence
  rw [List.append_assoc] at hparse
  have hprogram : (program (ts ++ (v ++ [⟨.eof, "", .nil, 1⟩]))).diagnostics = ds := diagnostics_of_parse hparse
  have hfirst := firstMisfit_append h (v ++ [⟨.eof, "", .nil, 1⟩])
  rw [firstMisfit_eq_none (hprogram ▸ hds)] at hfirst
  cases hfirst

end Parser

/-- The first complaint is made at one of the tokens. -/
theorem exists_firstMisfitAt {ts : List Token} {d : Diagnostic}
    (h : firstMisfit (Parser.program ts).diagnostics = some d) : ∃ i, FirstMisfitAt ts i d := by
  induction ts using List.reverseRec with
  | nil => cases h
  | append_singleton ts t ih =>
    cases hinit : firstMisfit (Parser.program ts).diagnostics with
    | none =>
      -- the last token makes the complaint
      refine ⟨ts.length, ?_, ?_⟩
      · rwa [List.take_left]
      · rwa [List.take_of_length_le (by simp)]
    | some d' =>
      obtain rfl : d' = d := Option.some.inj ((Parser.firstMisfit_append hinit [t]).symm.trans h)
      obtain ⟨i, hbefore, hmade⟩ := ih hinit
      have hlen : i < ts.length := by
        by_contra hle
        rw [List.take_of_length_le (by omega)] at hbefore
        rw [hinit] at hbefore
        cases hbefore
      refine ⟨i, ?_, ?_⟩
      · rwa [List.take_append_of_le_length (by omega)]
      · rwa [List.take_append_of_le_length (by omega)]

/-- The complaint is about the token at which it is made. -/
theorem FirstMisfitAt.about {ts : List Token} {i : Nat} {d : Diagnostic} (h : FirstMisfitAt ts i d) :
    ∃ t, ts[i]? = some t ∧ d = .ofToken .parse d.cause t := by
  obtain ⟨hbefore, hmade⟩ := h
  -- behind the end of the list no further token makes a difference
  have hlen : i < ts.length := by
    by_contra hle
    rw [List.take_of_length_le (by omega)] at hbefore hmade
    rw [hbefore] at hmade
    cases hmade
  refine ⟨ts[i], List.getElem?_eq_getElem hlen, ?_⟩
  rw [List.take_succ_eq_append_getElem hlen] at hmade
  obtain ⟨more, happend, hmore⟩ := Parser.program_diagnostics_append (ts.take i) [ts[i]]
  unfold firstMisfit at hbefore hmade
  rw [happend, List.find?_append, hbefore, Option.none_or] at hmade
  have hmisfit := List.find?_some hmade
  obtain ⟨cause, t, rfl, hcause⟩ := hmore d (List.mem_of_find?_eq_some hmade)
  change cause.isMisfit = true at hmisfit
  -- what the one token more has brought about is no excused cause, so it is about that token
  rcases hcause with hexcused | ⟨-, ht⟩
  · rw [Cause.excuses_of_isMisfit hmisfit] at hexcused
    cases hexcused
  · obtain rfl := List.mem_singleton.mp ht
    rfl

/-- **The first complaint comes as early as possible.** The parser complains about no token that does not fit exactly if
the tokens before the end token are a sentence of the relaxed grammar. Otherwise the first such complaint is made at one
of the tokens and is about that token; the tokens before it can be extended to a sentence, and with it they cannot. -/
theorem first_misfit_earliest {w : List Token} {eof : Token} (hw : ∀ t ∈ w, t.kind ≠ .eof) (heof : eof.kind = .eof) :
    ∃ ss ds, parse (w ++ [eof]) = some ⟨ss, ds⟩ ∧
      (firstMisfit ds = none ↔ ∃ ss', Program .relaxed ss' w) ∧
      (∀ d, firstMisfit ds = some d → ∃ i, FirstMisfitAt (w ++ [eof]) i d) ∧
      ∀ i d, FirstMisfitAt (w ++ [eof]) i d →
        firstMisfit ds = some d ∧ (∃ t, (w ++ [eof])[i]? = some t ∧ d = .ofToken .parse d.cause t) ∧
        BeginsSentence ((w ++ [eof]).take i) ∧ ¬ BeginsSentence ((w ++ [eof]).take (i + 1)) := by
  obtain ⟨ss, ds, hparse, -, hderived⟩ := parse_answers hw heof
  have hds : (Parser.program (w ++ [eof])).diagnostics = ds := Parser.diagnostics_of_parse hparse
  refine ⟨ss, ds, hparse, ⟨fun hnone => ?_, ?_⟩, fun d hd => ?_, fun i d hmade => ?_⟩
  · rw [← hds] at hnone
    exact ⟨ss, hderived .relaxed (hds ▸ Parser.excuses_of_firstMisfit hnone)⟩
  · rintro ⟨ss', hsentence⟩
    obtain ⟨ss'', ds', hparse', hexcused⟩ := parse_excuses heof hsentence
    cases hparse.symm.trans hparse'
    rw [← hds] at hexcused ⊢
    exact Parser.firstMisfit_eq_none hexcused
  · rw [← hds] at hd
    exact exists_firstMisfitAt hd
  · obtain ⟨t, ht, hd⟩ := hmade.about
    -- the end token is the last one, so that the tokens before the misfit are among `w`
    have hinit : (w ++ [eof]).take i = w.take i := by
      obtain ⟨hlen, -⟩ := List.getElem?_eq_some_iff.mp ht
      rw [List.length_append, List.length_singleton] at hlen
      exact List.take_append_of_le_length (by omega)
    have hfirst := Parser.firstMisfit_append hmade.2 ((w ++ [eof]).drop (i + 1))
    rw [List.take_append_drop, hds] at hfirst
    refine ⟨hfirst, ⟨t, ht, hd⟩, ?_, Parser.not_begins_of_firstMisfit hmade.2⟩
    have hbefore := hmade.1
    rw [hinit] at hbefore ⊢
    exact Parser.begins_of_firstMisfit (fun u hu => hw u (List.mem_of_mem_take hu)) hbefore

/-- A semicolon is missing: the tokens of `print nil print`. The second `print` does not fit. -/
theorem first_misfit_print :
    let token (kind : Kind) : Token := ⟨kind, "", .nil, 1⟩
    let w := [token .print, token .nil, token .print]
    (∀ t ∈ w, t.kind ≠ .eof) ∧ (token .eof).kind = .eof ∧
      ∃ d, FirstMisfitAt (w ++ [token .eof]) 2 d ∧ BeginsSentence [token .print, token .nil] ∧
        ¬ BeginsSentence [token .print, token .nil, token .print] := by
  intro token w
  have hw : ∀ t ∈ w, t.kind ≠ .eof := by simp [w, token]
  have hmade : FirstMisfitAt (w ++ [token .eof]) 2
      (.ofToken .parse (.expectedToken "';' after value") (token .print)) := ⟨rfl, rfl⟩
  obtain ⟨ss, ds, -, -, -, hat⟩ := first_misfit_earliest hw (show (token .eof).kind = .eof from rfl)
  obtain ⟨-, -, hbegins, hends⟩ := hat 2 _ hmade
  exact ⟨hw, rfl, _, hmade, hbegins, hends⟩

end LoxLang
