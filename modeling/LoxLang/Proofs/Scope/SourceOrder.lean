import LoxLang.Proofs.Lines.Parser
import LoxLang.Proofs.Lines.Seam
import LoxLang.Proofs.Scope.Crossings
import LoxLang.Proofs.Scope.Lexical
import Mathlib

/-!
# The order of the table

The table of a text is shown in the order of the lines, and on one line in the order in which the references were
resolved. To say whether this is the order of the text, tokens are told apart by their places: the text is parsed with
its tokens numbered, and what is recorded then is put back on the lines.

* **`numbered`** — tokens with their places for their lines.
* **`Listed`** — what the table of a text lists.
* **`table_lists_references`** — one entry for each recorded reference; they are in the order of the text if and only
  if no references cross on one line.
* **`value_listed_before_target`** — a text on which they cross.
-/

namespace LoxLang

open Event
open scoped List

/-! ## Pairs in a list

An order of a list is told by which pairs of it stand one before the other. -/

section

variable {α : Type} {l : List α} {a b : α}

/-- Of two different elements one stands before the other. -/
theorem pair_sublist_or (ha : a ∈ l) (hb : b ∈ l) (hne : a ≠ b) : [a, b] <+ l ∨ [b, a] <+ l := by
  have : Std.Symm fun a b => [a, b] <+ l ∨ [b, a] <+ l := ⟨fun _ _ => Or.symm⟩
  have hpairs : l.Pairwise fun a b => [a, b] <+ l ∨ [b, a] <+ l := List.pairwise_iff_forall_sublist.mpr .inl
  exact hpairs.forall ha hb hne

/-- In a list without repetition not both do. -/
theorem not_pair_sublist_swap (hl : l.Nodup) (h : [a, b] <+ l) : ¬ [b, a] <+ l := by
  intro h'
  induction l with
  | nil => cases h
  | cons c l ih =>
    obtain ⟨hc, hl⟩ := List.nodup_cons.mp hl
    cases h with
    | cons _ h =>
      cases h' with
      | cons _ h' => exact ih hl h h'
      | cons_cons _ h' => exact hc (h.subset (List.mem_cons_of_mem _ List.mem_cons_self))
    | cons_cons _ h =>
      cases h' with
      | cons _ h' => exact hc (h'.subset (List.mem_cons_of_mem _ List.mem_cons_self))
      | cons_cons _ h' => exact hc (h'.subset List.mem_cons_self)

end

/-! ## Places

Two tokens on one line may be equal in everything. Numbered they are not, and nothing that the parser or the resolver
does depends on the numbers. -/

/-- Tokens with their places in the list for their lines. -/
def numbered (ts : List Token) : List Token :=
  ts.mapIdx fun i t => t.moved fun _ => i

/-- The lines of the tokens at these places. -/
def Lines.of (ts : List Token) : Lines :=
  fun t => (ts[t.line.toNat]?).elim 0 (·.line)

section

variable {ts : List Token} {t u : Token}

/-- A numbered token is one of the list with its place for a line. -/
theorem mem_numbered : t ∈ numbered ts ↔ ∃ (i : Nat) (h : i < ts.length), t = ts[i].moved fun _ => i := by
  rw [numbered, List.mem_mapIdx]
  exact exists_congr fun i => exists_congr fun h => eq_comm

/-- Put back on the lines, numbered tokens are the tokens they were. -/
theorem moved_numbered (ts : List Token) : (numbered ts).map (·.moved (Lines.of ts)) = ts := by
  refine List.ext_getElem (by simp [numbered]) fun i h h' => ?_
  simp [numbered, Token.moved, Lines.of, h']

/-- The end token has the last place. -/
theorem numbered_append_eof (w : List Token) (eof : Token) :
    numbered (w ++ [eof]) = numbered w ++ [eof.moved fun _ => w.length] := by
  simp [numbered, List.mapIdx_append]

/-- Places increase. -/
theorem pairwise_numbered (ts : List Token) : (numbered ts).Pairwise (·.line < ·.line) := by
  rw [List.pairwise_iff_getElem]
  intro i j hi hj hij
  simpa [numbered, Token.moved] using hij

/-- The tokens with lexemes are at the same places when the end token is there. -/
theorem numbered_lexed_subset (source : String) : numbered (lexed source) ⊆ numbered (scan source).tokens := by
  rw [scan_tokens, numbered_append_eof]
  exact List.subset_append_left _ _

/-- What holds of the tokens whatever their lines holds of them at their places. -/
theorem forall_mem_numbered {P : Token → Prop} (hP : ∀ (t : Token) (i : Int), P t → P (t.moved fun _ => i))
    (h : ∀ t ∈ ts, P t) : ∀ t ∈ numbered ts, P t := by
  intro t ht
  obtain ⟨i, hi, rfl⟩ := mem_numbered.mp ht
  exact hP _ _ (h _ (List.getElem_mem hi))

/-- Of tokens on lines in order, one that stands before another one does not stand on a later line. -/
theorem line_le_of_place_le (hts : ts.Pairwise (·.line ≤ ·.line)) (ht : t ∈ numbered ts) (hu : u ∈ numbered ts)
    (h : t.line ≤ u.line) : Lines.of ts t ≤ Lines.of ts u := by
  obtain ⟨i, hi, rfl⟩ := mem_numbered.mp ht
  obtain ⟨j, hj, rfl⟩ := mem_numbered.mp hu
  have hij : i ≤ j := Int.ofNat_le.mp h
  have hline {k : Nat} (hk : k < ts.length) : Lines.of ts (ts[k].moved fun _ => k) = ts[k].line := by
    simp [Lines.of, Token.moved, hk]
  rw [hline hi, hline hj]
  rcases Nat.eq_or_lt_of_le hij with rfl | hlt
  · exact Int.le_refl _
  · exact List.pairwise_iff_getElem.mp hts i j hi hj hlt

end

/-- The tokens of a text stand on lines in order. -/
theorem pairwise_lexedFrom (line : Nat) (ps : List Piece) : (lexedFrom line ps).Pairwise (·.line ≤ ·.line) := by
  induction ps generalizing line with
  | nil => exact .nil
  | cons p ps ih =>
    refine List.pairwise_append.mpr ⟨?_, ih _, fun t ht u hu => ?_⟩
    · cases p with
      | token => exact List.pairwise_singleton _ _
      | _ => exact .nil
    · have hline : t.line = line + p.newlines := by
        cases p with
        | token => exact List.mem_singleton.mp ht ▸ rfl
        | _ => cases ht
      have := line_of_mem_lexedFrom hu
      omega

/-- Lines do not decrease along a text. -/
theorem pairwise_scan (source : String) : (scan source).tokens.Pairwise (·.line ≤ ·.line) := by
  rw [scan_tokens]
  refine List.pairwise_append.mpr ⟨pairwise_lexedFrom _ _, List.pairwise_singleton _ _, fun t ht u hu => ?_⟩
  obtain rfl := List.mem_singleton.mp hu
  show t.line ≤ (1 + newlines source : Nat)
  have := line_of_mem_lexed ht
  omega

/-- A text is parsed to its program, on the lines of the text, if it is parsed with its tokens numbered. -/
theorem parse_numbered {source : String} {program : List SourceStmt}
    (h : parse (scan source).tokens = some ⟨program, []⟩) :
    ∃ placed, parse (numbered (scan source).tokens) = some ⟨placed, []⟩ ∧
      Stmt.movedAll (Lines.of (scan source).tokens) placed = program ∧
      Program .standard placed (numbered (lexed source)) ∧ Stmt.AllFormed Token.Spelled placed := by
  have hkinds : ∀ t ∈ numbered (lexed source), t.kind ≠ .eof :=
    forall_mem_numbered (fun _ _ => id) fun _ => kind_of_mem_lexed
  have hspelled : ∀ t ∈ numbered (lexed source), t.Spelled := by
    refine forall_mem_numbered (fun _ _ => id) fun t ht => ?_
    obtain ⟨ts, eof, htokens, -, hlexemes⟩ := scan_lexemes source
    obtain ⟨rfl, -⟩ := List.append_inj' ((scan_tokens source).symm.trans htokens) rfl
    obtain ⟨w, hw, hlexeme⟩ := hlexemes t ht
    exact hw.spelled hlexeme
  have heof : (Token.moved (fun _ => (lexed source).length) (.eof (1 + newlines source : Nat))).kind = .eof := rfl
  obtain ⟨placed, ds, hplaced, hformed, hderived⟩ := parse_answers hkinds heof
  have hparse : parse (numbered (scan source).tokens) = some ⟨placed, ds⟩ := by
    rw [scan_tokens, numbered_append_eof]
    exact hplaced
  -- parsing does not look at lines, so that the tree of the numbered tokens has the lines of the text when they are
  -- put back
  have hmoved := parse_moved (Lines.of (scan source).tokens) (numbered (scan source).tokens)
  rw [moved_numbered, h, hparse] at hmoved
  obtain ⟨hprogram, hds⟩ := Parsed.mk.inj (Option.some.inj hmoved)
  obtain rfl := List.map_eq_nil_iff.mp hds.symm
  exact ⟨placed, hparse, hprogram.symm, hderived .standard Dialect.excuses_nil, hformed _ hspelled⟩

/-! ## Recorded references

A record is an entry together with the place of its token. The list of entries is what is left of the records when the
places are put back on lines. -/

/-- A reference that is recorded, at its token. -/
structure Record where
  kind : ReferenceKind
  token : Token
  depth : Nat

namespace Record

/-- The place of a numbered token. -/
def place (r : Record) : Int := r.token.line

/-- The entry of a record with its token on a line. -/
def entry (L : Lines) (r : Record) : Entry := .of r.kind (r.token.moved L) r.depth

end Record

namespace Event

/-- The record of a reference that notes a distance. -/
def record? : Event Hops → Option Record
  | .refer kind r => r.note.map (⟨kind, r.name, ·⟩)
  | _ => none

/-- The records of the references among the events. -/
def records (es : List (Event Hops)) : List Record :=
  es.filterMap record?

/-- The entries of events are their records, seen without places. -/
theorem entries_eq_map_records (es : List (Event Hops)) :
    entries es = (records es).map fun r => .of r.kind r.token r.depth := by
  rw [entries, records, List.map_filterMap]
  congr
  funext e
  cases e with
  | refer kind r =>
    obtain ⟨name, note⟩ := r
    cases note <;> rfl
  | _ => rfl

/-- A record has the token of a name that is referred to. -/
theorem tokens_records_sublist (es : List (Event Hops)) : (records es).map (·.token) <+ names es := by
  induction es with
  | nil => exact .slnil
  | cons e es ih =>
    cases e with
    | refer kind r =>
      rw [names_refer]
      cases hnote : r.note with
      | none =>
        have hrecords : records (.refer kind r :: es) = records es := by simp [records, record?, hnote]
        rw [hrecords]
        exact ih.cons _
      | some d =>
        have hrecords : records (.refer kind r :: es) = ⟨kind, r.name, d⟩ :: records es := by
          simp [records, record?, hnote]
        rw [hrecords]
        exact ih.cons_cons _
    | _ => exact ih

/-- Names do not depend on notes. -/
theorem names_map {ρ σ : Type} (f : ρ → σ) (es : List (Event ρ)) : names (es.map (mapNotes f)) = names es := by
  rw [names, names, List.filterMap_map]
  congr
  funext e
  cases e <;> rfl

end Event

/-- Trees that differ in notes name the same tokens. -/
theorem names_of_erased {ρ σ : Type} {ss : List (Stmt ρ)} {ss' : List (Stmt σ)}
    (h : Stmt.erasedAll ss = Stmt.erasedAll ss') : names (Stmt.eventsAll ss) = names (Stmt.eventsAll ss') := by
  have hnames := congrArg (fun ss => names (Stmt.eventsAll ss)) h
  simpa only [Stmt.events_mapAllNotes, names_map] using hnames

/-- What is recorded of the references of a program, in the order in which they are resolved. -/
def recorded (program : List SourceStmt) : List Record :=
  Event.records (Stmt.eventsAll (resolve program).1)

/-- What is recorded is recorded at the names. -/
theorem tokens_recorded_sublist (program : List SourceStmt) :
    (recorded program).map (·.token) <+ names (Stmt.eventsAll program) := by
  rw [← names_of_erased (resolve_erased program)]
  exact tokens_records_sublist _

/-- The first record does not stand on a later line. -/
def Record.noLater (L : Lines) (r r' : Record) : Bool :=
  L r.token ≤ L r'.token

theorem Record.noLater_trans (L : Lines) (r₁ r₂ r₃ : Record) (h : r₁.noLater L r₂) (h' : r₂.noLater L r₃) :
    r₁.noLater L r₃ :=
  decide_eq_true (Int.le_trans (of_decide_eq_true h) (of_decide_eq_true h'))

/-- Of two lines one is no later. -/
theorem Record.noLater_total (L : Lines) (r r' : Record) : r.noLater L r' || r'.noLater L r := by
  simp [noLater, Int.le_total]

/-- What is recorded, in the order of the lines. On one line the order of resolution remains. -/
def listing (L : Lines) (program : List SourceStmt) : List Record :=
  (recorded program).mergeSort (Record.noLater L)

section

variable {L : Lines} {program : List SourceStmt} {r r' : Record}

/-- The entries of a program are those of its records. -/
theorem entries_eq_map_recorded (hformed : Stmt.AllFormed Token.Spelled program) :
    (resolve program).2.entries = (recorded program).map fun r => .of r.kind r.token r.depth := by
  rw [(resolve_records hformed).entries, entries_eq_map_records, recorded]

/-- The entry of a moved token is that of the record on the new line, if lines depend on places only. -/
theorem Entry.Moves.eq_entry (hL : ∀ t u : Token, t.line = u.line → L t = L u) {e : Entry}
    (h : Entry.Moves L (.of r.kind r.token r.depth) e) : e = r.entry L := by
  obtain ⟨kind, t, depth, hr, rfl⟩ := h
  obtain ⟨hlexeme, hline, rfl, rfl⟩ := Entry.mk.inj hr
  exact congrArg₂ (Entry.mk · · r.kind r.depth) hlexeme.symm (hL _ _ hline.symm)

/-- Of a program on other lines the same references are recorded, with tokens on these lines. -/
theorem entries_moved (hL : ∀ t u : Token, t.line = u.line → L t = L u)
    (hformed : Stmt.AllFormed Token.Spelled program) :
    (resolve (Stmt.movedAll L program)).2.entries = (recorded program).map (·.entry L) := by
  have hmoves := (resolve_moved (L := L) hformed).2.1
  rw [entries_eq_map_recorded hformed, List.forall₂_map_left_iff] at hmoves
  have heq : List.Forall₂ (fun r e => r.entry L = e) (recorded program)
      (resolve (Stmt.movedAll L program)).2.entries :=
    hmoves.imp fun r e h => (h.eq_entry hL).symm
  rwa [← List.forall₂_map_left_iff, List.forall₂_eq_eq_eq, eq_comm] at heq

/-- The table of the records is shown in the order of the listing. -/
theorem describe_entries (L : Lines) (program : List SourceStmt) :
    describe ((recorded program).map (·.entry L)) = (listing L program).map (·.entry L) :=
  (List.map_mergeSort (f := (·.entry L)) (r := Record.noLater L) fun _ _ _ _ => rfl).symm

/-- The listing has the records, each of them. -/
theorem mem_listing : r ∈ listing L program ↔ r ∈ recorded program :=
  List.mem_mergeSort

/-- What is listed is recorded. -/
theorem recorded_of_listed (h : [r, r'] <+ listing L program) : r ∈ recorded program ∧ r' ∈ recorded program := by
  refine ⟨mem_listing.mp (h.subset ?_), mem_listing.mp (h.subset ?_)⟩ <;> simp

/-- The lines of a listing do not decrease. -/
theorem pairwise_listing (L : Lines) (program : List SourceStmt) :
    (listing L program).Pairwise fun r r' => L r.token ≤ L r'.token :=
  (List.pairwise_mergeSort (Record.noLater_trans L) (Record.noLater_total L) _).imp of_decide_eq_true

/-- Sorting by lines does not swap records that are in order. -/
theorem pair_sublist_listing (hline : L r.token ≤ L r'.token) (h : [r, r'] <+ recorded program) :
    [r, r'] <+ listing L program :=
  List.pair_sublist_mergeSort (Record.noLater_trans L) (Record.noLater_total L) (decide_eq_true hline) h

end

/-! ## The order of the listing

In a program that was read from numbered tokens, each record is about a token of its own. So the listing has no
repetition, and its order is determined pair by pair. -/

/-- Tokens that follow a list without repetition are different from each other. -/
theorem Follows.nodup {C : Token → Token → Prop} {w ts : List Token} (h : Follows C w ts) (hw : w.Nodup) :
    ts.Nodup := by
  refine h.order.imp fun hut => ?_
  rintro rfl
  rcases hut with h | ⟨h, -⟩ <;> exact List.nodup_iff_sublist.mp hw _ h

/-- A program that is derived from tokens in order, which stand on lines in order. -/
structure Reading (L : Lines) (w : List Token) (program : List SourceStmt) : Prop where
  places : w.Pairwise (·.line < ·.line)
  lines : ∀ t ∈ w, ∀ u ∈ w, t.line ≤ u.line → L t ≤ L u
  derived : Program .standard program w
  formed : Stmt.AllFormed Token.Spelled program

namespace Reading

variable {L : Lines} {w : List Token} {program : List SourceStmt} {r r' : Record}

/-- The names of the program, as they are read. -/
theorem follows (h : Reading L w program) :
    Follows (fun t u => Stmt.AnyCrosses t u program) w (names (Stmt.eventsAll program)) :=
  Program.follows rfl h.derived

/-- Each name in the tree is a token of its own. -/
theorem nodup_names (h : Reading L w program) : (names (Stmt.eventsAll program)).Nodup :=
  h.follows.nodup (h.places.imp fun hlt => by rintro rfl; exact absurd hlt (Int.lt_irrefl _))

/-- So is the token of each record. -/
theorem nodup_tokens (h : Reading L w program) : ((recorded program).map (·.token)).Nodup :=
  h.nodup_names.sublist (tokens_recorded_sublist _)

/-- It is one of those read. -/
theorem token_mem (h : Reading L w program) (hr : r ∈ recorded program) : r.token ∈ w :=
  h.follows.subset ((tokens_recorded_sublist _).subset (List.mem_map_of_mem hr))

/-- No record is listed twice. -/
theorem nodup_listing (h : Reading L w program) : (listing L program).Nodup :=
  (List.mergeSort_perm _ _).nodup_iff.mpr (h.nodup_tokens.of_map _)

/-- Tokens on different lines stand as their lines do. -/
theorem place_lt_of_line_lt (h : Reading L w program) (hr : r ∈ recorded program) (hr' : r' ∈ recorded program)
    (hline : L r.token < L r'.token) : r.place < r'.place := by
  by_contra hplace
  have := h.lines _ (h.token_mem hr') _ (h.token_mem hr) (Int.not_lt.mp hplace)
  omega

/-- On one line records are listed as they were resolved. -/
theorem resolved_of_listed (h : Reading L w program) (hpair : [r, r'] <+ listing L program)
    (hline : L r.token = L r'.token) : [r, r'] <+ recorded program := by
  obtain ⟨hr, hr'⟩ := recorded_of_listed hpair
  have hne : r ≠ r' := by
    rintro rfl
    exact List.nodup_iff_sublist.mp h.nodup_listing _ hpair
  refine (pair_sublist_or hr hr' hne).resolve_right fun hswap => ?_
  exact not_pair_sublist_swap h.nodup_listing hpair (pair_sublist_listing (Int.le_of_eq hline.symm) hswap)

/-- The listing is in the order of the text if and only if no recorded references cross on one line. -/
theorem listing_order (h : Reading L w program) :
    (listing L program).Pairwise (·.place < ·.place) ↔
      ∀ r ∈ recorded program, ∀ r' ∈ recorded program, Stmt.AnyCrosses r.token r'.token program →
        r.place < r'.place → L r.token ≠ L r'.token := by
  constructor
  · intro horder r hr r' hr' hcross hplace hline
    -- the first one of two that cross is resolved last, and stays behind the other one on its line
    have hread := Stmt.names_of_anyCrosses program hcross
    have hne : r' ≠ r := by
      rintro rfl
      exact absurd hplace (Int.lt_irrefl _)
    have hresolved : [r', r] <+ recorded program := by
      refine (pair_sublist_or hr' hr hne).resolve_right fun hswap => ?_
      exact not_pair_sublist_swap h.nodup_names hread ((hswap.map _).trans (tokens_recorded_sublist _))
    have hlisted := pair_sublist_listing (Int.le_of_eq hline.symm) hresolved
    have hback := List.pairwise_iff_forall_sublist.mp horder hlisted
    omega
  · intro happart
    refine List.pairwise_iff_forall_sublist.mpr fun {r r'} hpair => ?_
    obtain ⟨hr, hr'⟩ := recorded_of_listed hpair
    have hle := List.pairwise_iff_forall_sublist.mp (pairwise_listing L program) hpair
    rcases Int.lt_or_eq_of_le hle with hline | hline
    · exact h.place_lt_of_line_lt hr hr' hline
    · have hread : [r.token, r'.token] <+ names (Stmt.eventsAll program) :=
        ((h.resolved_of_listed hpair hline).map _).trans (tokens_recorded_sublist _)
      rcases List.pairwise_iff_forall_sublist.mp h.follows.order hread with hwritten | ⟨hwritten, hcross⟩
      · exact List.pairwise_iff_forall_sublist.mp h.places hwritten
      · have hplace := List.pairwise_iff_forall_sublist.mp h.places hwritten
        exact absurd hline.symm (happart r' hr' r hr hcross hplace)

end Reading

/-! ## Whole texts

A text is numbered token by token, and lines are put back at the end. Since parsing, resolving and recording do not look
at lines, all that is known of the numbered program holds of the text. -/

/-- The lines of a text, by the places of its tokens. -/
def linesOf (source : String) : Lines :=
  Lines.of (scan source).tokens

/-- What the table of a text lists. Here `placed` is its program with the places of the tokens for their lines. -/
structure Listed (source : String) (program placed : List SourceStmt) : Prop where
  parsed : parse (numbered (scan source).tokens) = some ⟨placed, []⟩
  /-- Put on the lines of the text, it is resolved to what the program is resolved to. -/
  resolved : Stmt.movedAll (linesOf source) (resolve placed).1 = (resolve program).1
  /-- Each recorded reference has a token of the text to itself. -/
  tokens : ((recorded placed).map (·.token)).Nodup ∧ ∀ r ∈ recorded placed, r.token ∈ numbered (scan source).tokens
  /-- The table of a new session shows an entry for each one, with the name and the line of its token, and no other. -/
  table : ∀ (settings : Settings) (wantsTable : Bool) (stopAfter : Option ArtifactName),
    stopAfter ≠ some .tokens → stopAfter ≠ some .ast →
      describe (Session.initial.step settings wantsTable stopAfter source).session.table
        = (listing (linesOf source) placed).map (·.entry (linesOf source))
  complete : (listing (linesOf source) placed).Perm (recorded placed)
  /-- Those on different lines are in the order of the text. -/
  across : (listing (linesOf source) placed).Pairwise fun r r' =>
    linesOf source r.token ≠ linesOf source r'.token → r.place < r'.place
  /-- All are, if and only if no two of them cross on one line. -/
  order : (listing (linesOf source) placed).Pairwise (·.place < ·.place) ↔
    ∀ r ∈ recorded placed, ∀ r' ∈ recorded placed, Stmt.AnyCrosses r.token r'.token placed → r.place < r'.place →
      linesOf source r.token ≠ linesOf source r'.token

/-- The tokens of a text with its program on their places. -/
theorem reading_numbered {source : String} {placed : List SourceStmt}
    (hderived : Program .standard placed (numbered (lexed source))) (hformed : Stmt.AllFormed Token.Spelled placed) :
    Reading (linesOf source) (numbered (lexed source)) placed where
  places := pairwise_numbered _
  lines _ ht _ hu h :=
    line_le_of_place_le (pairwise_scan source) (numbered_lexed_subset source ht) (numbered_lexed_subset source hu) h
  derived := hderived
  formed := hformed

/-- **The table of a text lists its recorded references**, each with the name and the line of its token. They are in
the order of the lines, and on one line in the order of the text but for those that cross. -/
theorem table_lists_references {source : String} {program : List SourceStmt} (hclean : (scan source).diagnostics = [])
    (hparse : parse (scan source).tokens = some ⟨program, []⟩) : ∃ placed, Listed source program placed := by
  obtain ⟨placed, hplaced, hmoved, hderived, hformed⟩ := parse_numbered hparse
  have hreading := reading_numbered hderived hformed
  refine ⟨placed, hplaced, ?resolved, ⟨hreading.nodup_tokens, ?written⟩, ?table, List.mergeSort_perm _ _, ?across,
    hreading.listing_order⟩
  case resolved =>
    rw [← hmoved, (resolve_moved hformed).1]
    rfl
  case written => exact fun r hr => numbered_lexed_subset source (hreading.token_mem hr)
  case table =>
    intro settings wantsTable stopAfter htokens hast
    have hentries : (resolve program).2.entries = (recorded placed).map (·.entry (linesOf source)) := by
      rw [← hmoved]
      exact entries_moved (fun t u h => congrArg (fun l : Int => ((scan source).tokens[l.toNat]?).elim 0 (·.line)) h)
        hformed
    have hstep := Session.step_table hparse settings wantsTable stopAfter .initial
    rw [hclean, if_neg (by rintro (h | h | h); exacts [htokens h, hast h, Bool.false_ne_true h])] at hstep
    rw [hstep, hentries]
    exact describe_entries _ _
  -- two records of different lines are listed by line, and places increase with lines
  case across =>
    refine List.pairwise_iff_forall_sublist.mpr fun {r r'} hpair hne => ?_
    obtain ⟨hr, hr'⟩ := recorded_of_listed hpair
    have hle := List.pairwise_iff_forall_sublist.mp (pairwise_listing (linesOf source) placed) hpair
    exact hreading.place_lt_of_line_lt hr hr' (Int.lt_iff_le_and_ne.mpr ⟨hle, hne⟩)

/-- An assignment whose value stands on the next line. -/
theorem table_lists_references_two_lines :
    let source := "\x7b var a; a =\na; \x7d"
    let name (line : Int) : Token := ⟨.identifier, "a", .nil, line⟩
    let program : List SourceStmt :=
      [.block [.var (name 1) none, .expression (.assign ⟨name 1, ()⟩ (.variable ⟨name 2, ()⟩))]]
    (scan source).diagnostics = [] ∧ parse (scan source).tokens = some ⟨program, []⟩ ∧
      ∃ placed, Listed source program placed := by
  intro source name program
  have hclean : (scan source).diagnostics = [] := by cbv
  have hparse : parse (scan source).tokens = some ⟨program, []⟩ := by cbv
  exact ⟨hclean, hparse, table_lists_references hclean hparse⟩

/-- On one line the value is listed before the target: no list of the recorded references in the order of the text is
what the table shows. -/
theorem value_listed_before_target :
    let source := "\x7b var a; var b; a = b; \x7d"
    let name (lexeme : String) (line : Int) : Token := ⟨.identifier, lexeme, .nil, line⟩
    let program (a b a' b' : Int) : List SourceStmt := [.block [.var (name "a" a) none, .var (name "b" b) none,
      .expression (.assign ⟨name "a" a', ()⟩ (.variable ⟨name "b" b', ()⟩))]]
    let placed := program 2 5 7 9
    (scan source).diagnostics = [] ∧ parse (scan source).tokens = some ⟨program 1 1 1 1, []⟩ ∧
      parse (numbered (scan source).tokens) = some ⟨placed, []⟩ ∧
      ∀ settings wantsTable, ¬ ∃ listed : List Record, listed.Perm (recorded placed) ∧
        listed.Pairwise (·.place < ·.place) ∧
        describe (Session.initial.step settings wantsTable none source).session.table
          = listed.map (·.entry (linesOf source)) := by
  intro source name program placed
  have hclean : (scan source).diagnostics = [] := by cbv
  have hparse : parse (scan source).tokens = some ⟨program 1 1 1 1, []⟩ := by cbv
  refine ⟨hclean, hparse, by cbv, ?_⟩
  rintro settings wantsTable ⟨listed, hperm, horder, htable⟩
  have hrecorded : recorded placed = [⟨.variable, name "b" 9, 0⟩, ⟨.assign, name "a" 7, 0⟩] := by cbv
  have hentries : (resolve (program 1 1 1 1)).2.entries = [⟨"b", 1, .variable, 0⟩, ⟨"a", 1, .assign, 0⟩] := by cbv
  have hstep := Session.step_table hparse settings wantsTable none .initial
  rw [hclean, if_neg (by decide), hentries] at hstep
  -- both stand on one line, so that the table is in order already
  have hshown : describe (Session.initial.step settings wantsTable none source).session.table
      = [⟨"b", 1, .variable, 0⟩, ⟨"a", 1, .assign, 0⟩] := by
    rw [hstep]
    exact List.mergeSort_of_pairwise (by decide)
  rw [hrecorded, List.perm_pair] at hperm
  rcases hperm with rfl | rfl
  · exact absurd horder (by decide)
  · rw [hshown] at htable
    exact absurd (congrArg (·.map Entry.name) htable) (by decide)

end LoxLang
