import Mathlib
import LoxLang.Proofs.Decimal.Numerals
import LoxLang.Tree.Printer

/-!
# Texts in parentheses

Words, quoted texts, and lists of such in parentheses. Nothing is escaped, and yet no text is the text of two: a word
ends before the first delimiter, a quoted text at the first quote, and a list where its parentheses are balanced, which
what stands between quotes has no part in.

* **`Sexp.text_unique`** — a text in front of others is read in one way.
* **`Sexp.lines_unique`** — so are texts that stand one below the other.
-/

namespace LoxLang

/-- Words, quoted texts and lists. -/
inductive Sexp where
  | word (w : String)
  | quoted (s : String)
  | list (parts : List Sexp)

namespace Sexp

/-! ## Texts

What may be printed: words and quoted texts are proper if their ends can be seen. -/

mutual

/-- The text, the parts of a list separated by blanks. -/
def text : Sexp → String
  | word w => w
  | quoted s => "\"" ++ s ++ "\""
  | list parts => "(" ++ " ".intercalate (texts parts) ++ ")"

def texts : List Sexp → List String
  | [] => []
  | p :: ps => p.text :: texts ps

end

/-- The characters that no word has. -/
def isDelimiter (c : Char) : Bool :=
  c ∈ [' ', '\n', '(', ')', '"']

/-- Whether a text has a character and no delimiter. -/
def isWord (w : String) : Bool :=
  !w.toList.isEmpty && w.toList.all fun c => !isDelimiter c

mutual

/-- Every word is one, and no quoted text has a quote. -/
def Proper : Sexp → Prop
  | word w => isWord w = true
  | quoted s => '"' ∉ s.toList
  | list parts => AllProper parts

def AllProper : List Sexp → Prop
  | [] => True
  | p :: ps => p.Proper ∧ AllProper ps

end

theorem isWord_iff {w : String} :
    isWord w = true ↔ w.toList ≠ [] ∧ ∀ c ∈ w.toList, isDelimiter c = false := by
  simp [isWord]

/-! ## Texts as lists of characters

Parts of a list are separated by a blank, those of a program by a newline; one definition serves both. -/

/-- The texts of further parts, each behind a separator. -/
def rests (separator : Char) : List Sexp → List Char
  | [] => []
  | p :: ps => separator :: (p.text.toList ++ rests separator ps)

/-- The texts of parts with a separator between any two. -/
def joined (separator : Char) : List Sexp → List Char
  | [] => []
  | p :: ps => p.text.toList ++ rests separator ps

/-- The text of parts with separators between them. -/
theorem toList_intercalate_texts (separator : Char) (ps : List Sexp) :
    ((String.singleton separator).intercalate (texts ps)).toList = joined separator ps := by
  induction ps with
  | nil => rfl
  | cons p ps ih =>
    cases ps with
    | nil => simp [texts, joined, rests]
    | cons q ps =>
      rw [texts, texts, String.intercalate_cons_cons, ← texts, String.toList_append, ih]
      simp [joined, rests]

theorem toList_text_quoted (s : String) : (quoted s).text.toList = '"' :: (s.toList ++ ['"']) := by
  simp [text]

theorem toList_text_list (parts : List Sexp) : (list parts).text.toList = '(' :: (joined ' ' parts ++ [')']) := by
  have hjoined := toList_intercalate_texts ' ' parts
  rw [text, String.toList_append, String.toList_append]
  exact congrArg (fun cs => '(' :: (cs ++ [')'])) hjoined

/-! ## Reading

Two texts that begin a list of characters are the same text, if what comes behind each of them ends it. This is shown
from the front: the first character tells which sort of text it is. -/

/-- What stands behind a text begins with a delimiter. -/
def Stops (rest : List Char) : Prop :=
  ∀ c, rest.head? = some c → isDelimiter c = true

/-- What stands behind parts is the closing parenthesis or nothing. -/
def Closes (rest : List Char) : Prop :=
  ∀ c, rest.head? = some c → c = ')'

theorem closes_nil : Closes [] := by
  intro c hc
  cases hc

theorem closes_cons (rest : List Char) : Closes (')' :: rest) :=
  fun _ hc => (Option.some.inj hc).symm

/-- What closes a list ends a word. -/
theorem Closes.stops {rest : List Char} (h : Closes rest) : Stops rest := by
  intro c hc
  rw [h c hc]
  rfl

/-- A separator ends a word. -/
theorem stops_rests {separator : Char} (hseparator : isDelimiter separator = true) (ps : List Sexp)
    {rest : List Char} (h : Stops rest) : Stops (rests separator ps ++ rest) := by
  cases ps with
  | nil => exact h
  | cons p ps =>
    intro c hc
    obtain rfl : separator = c := Option.some.inj hc
    exact hseparator

/-- A text is not empty, and it does not begin with a closing parenthesis. -/
theorem head_text {p : Sexp} (h : p.Proper) : ∃ c cs, p.text.toList = c :: cs ∧ c ≠ ')' := by
  cases p with
  | word w =>
    obtain ⟨hne, hnone⟩ := isWord_iff.mp h
    obtain ⟨c, cs, hw⟩ := List.exists_cons_of_ne_nil hne
    refine ⟨c, cs, hw, ?_⟩
    rintro rfl
    exact absurd (hnone ')' (by simp [hw])) (by decide)
  | quoted s => exact ⟨_, _, toList_text_quoted s, by decide⟩
  | list parts => exact ⟨_, _, toList_text_list parts, by decide⟩

/-- A word begins with no delimiter. -/
theorem head_word {w : String} (h : (word w).Proper) {c : Char} {cs rest : List Char}
    (hw : w.toList ++ rest = c :: cs) : isDelimiter c = false := by
  obtain ⟨hne, hnone⟩ := isWord_iff.mp h
  obtain ⟨d, ds, hd⟩ := List.exists_cons_of_ne_nil hne
  rw [hd] at hw
  obtain rfl : d = c := (List.cons.inj hw).1
  exact hnone d (by simp [hd])

/-- A text up to the first character that does not belong to it is read in one way. -/
theorem append_unique (belongs : Char → Bool) {front front' back back' : List Char}
    (hfront : ∀ c ∈ front, belongs c = true) (hfront' : ∀ c ∈ front', belongs c = true)
    (hback : ∀ c, back.head? = some c → belongs c = false)
    (hback' : ∀ c, back'.head? = some c → belongs c = false)
    (h : front ++ back = front' ++ back') : front = front' ∧ back = back' := by
  obtain ⟨htake, hdrop⟩ := Numeral.takeWhile_dropWhile_append hfront hback
  obtain ⟨htake', hdrop'⟩ := Numeral.takeWhile_dropWhile_append hfront' hback'
  rw [h] at htake hdrop
  exact ⟨htake.symm.trans htake', hdrop.symm.trans hdrop'⟩

mutual

/-- Texts are read in one way, by induction on what is read; what is between parentheses is read part by part. -/
theorem text_unique {p q : Sexp} (hp : p.Proper) (hq : q.Proper) {r s : List Char} (hr : Stops r) (hs : Stops s)
    (h : p.text.toList ++ r = q.text.toList ++ s) : p = q ∧ r = s := by
  cases p with
  | word w =>
    cases q with
    | word w' =>
      -- both end at the first delimiter
      have hword := (isWord_iff.mp hp).2
      have hword' := (isWord_iff.mp hq).2
      have hsplit := append_unique (fun c => !isDelimiter c) (fun c hc => by simp [hword c hc])
        (fun c hc => by simp [hword' c hc]) (fun c hc => by simp [hr c hc]) (fun c hc => by simp [hs c hc]) h
      exact ⟨congrArg word (String.toList_inj.mp hsplit.1), hsplit.2⟩
    | quoted t =>
      rw [toList_text_quoted] at h
      exact absurd (head_word hp h) (by decide)
    | list qs =>
      rw [toList_text_list] at h
      exact absurd (head_word hp h) (by decide)
  | quoted t =>
    rw [toList_text_quoted] at h
    cases q with
    | word w => exact absurd (head_word hq h.symm) (by decide)
    | quoted t' =>
      rw [toList_text_quoted] at h
      simp only [List.cons_append, List.append_assoc, List.cons.injEq, true_and] at h
      -- both end at the second quote
      have hunquoted : ∀ {s : String}, '"' ∉ s.toList → ∀ c ∈ s.toList, (c != '"') = true := fun h c hc =>
        bne_iff_ne.mpr fun heq => h (heq ▸ hc)
      have hquote : ∀ rest c, ('"' :: rest).head? = some c → (c != '"') = false := by
        rintro rest c ⟨⟩
        rfl
      have hsplit := append_unique (fun c => c != '"') (hunquoted hp) (hunquoted hq) (hquote r) (hquote s) h
      exact ⟨congrArg quoted (String.toList_inj.mp hsplit.1), (List.cons.inj hsplit.2).2⟩
    | list qs =>
      rw [toList_text_list] at h
      exact absurd (List.cons.inj h).1 (by decide)
  | list ps =>
    rw [toList_text_list] at h
    cases q with
    | word w => exact absurd (head_word hq h.symm) (by decide)
    | quoted t =>
      rw [toList_text_quoted] at h
      exact absurd (List.cons.inj h).1 (by decide)
    | list qs =>
      rw [toList_text_list] at h
      -- behind the same parts stands the closing parenthesis of both
      simp only [List.cons_append, List.nil_append, List.append_assoc, List.cons.injEq, true_and] at h
      obtain ⟨rfl, hrest⟩ := joined_unique (by decide) (by decide) hp hq (closes_cons r) (closes_cons s) h
      exact ⟨rfl, (List.cons.inj hrest).2⟩

/-- Both lists are empty, or both have a first part, and that part is the same. -/
theorem joined_unique {separator : Char} (hseparator : isDelimiter separator = true) (hclosing : separator ≠ ')')
    {ps qs : List Sexp} (hps : AllProper ps) (hqs : AllProper qs) {r s : List Char} (hr : Closes r) (hs : Closes s)
    (h : joined separator ps ++ r = joined separator qs ++ s) : ps = qs ∧ r = s := by
  -- an empty list is told from the others by its closing parenthesis, with which no part begins
  cases ps with
  | nil =>
    cases qs with
    | nil => exact ⟨rfl, h⟩
    | cons q qs =>
      obtain ⟨c, cs, hc, hne⟩ := head_text hqs.1
      rw [joined, joined, hc] at h
      exact absurd (hr c (by simp_all)) hne
  | cons p ps =>
    cases qs with
    | nil =>
      obtain ⟨c, cs, hc, hne⟩ := head_text hps.1
      rw [joined, joined, hc] at h
      exact absurd (hs c (by rw [← List.nil_append s, ← h]; rfl)) hne
    | cons q qs =>
      rw [joined, joined, List.append_assoc, List.append_assoc] at h
      obtain ⟨rfl, hrests⟩ := text_unique hps.1 hqs.1 (stops_rests hseparator ps hr.stops)
        (stops_rests hseparator qs hs.stops) h
      obtain ⟨rfl, hrest⟩ := rests_unique hseparator hclosing hps.2 hqs.2 hr hs hrests
      exact ⟨rfl, hrest⟩

/-- Behind a part comes a separator or the end of the list, on both sides the same. -/
theorem rests_unique {separator : Char} (hseparator : isDelimiter separator = true) (hclosing : separator ≠ ')')
    {ps qs : List Sexp} (hps : AllProper ps) (hqs : AllProper qs) {r s : List Char} (hr : Closes r) (hs : Closes s)
    (h : rests separator ps ++ r = rests separator qs ++ s) : ps = qs ∧ r = s := by
  cases ps with
  | nil =>
    cases qs with
    | nil => exact ⟨rfl, h⟩
    | cons q qs => exact absurd (hr separator (by rw [← List.nil_append r]; exact congrArg List.head? h)) hclosing
  | cons p ps =>
    cases qs with
    | nil => exact absurd (hs separator (by rw [← List.nil_append s]; exact congrArg List.head? h.symm)) hclosing
    | cons q qs =>
      simp only [rests, List.cons_append, List.append_assoc, List.cons.injEq, true_and] at h
      obtain ⟨rfl, hrests⟩ := text_unique hps.1 hqs.1 (stops_rests hseparator ps hr.stops)
        (stops_rests hseparator qs hs.stops) h
      obtain ⟨rfl, hrest⟩ := rests_unique hseparator hclosing hps.2 hqs.2 hr hs hrests
      exact ⟨rfl, hrest⟩

end

/-- Texts that stand one below the other are read in one way. -/
theorem lines_unique {ps qs : List Sexp} (hps : AllProper ps) (hqs : AllProper qs)
    (h : "\n".intercalate (texts ps) = "\n".intercalate (texts qs)) : ps = qs := by
  have hjoined := congrArg String.toList h
  change ((String.singleton '\n').intercalate _).toList = ((String.singleton '\n').intercalate _).toList at hjoined
  rw [toList_intercalate_texts, toList_intercalate_texts, ← List.append_nil (joined _ ps),
    ← List.append_nil (joined _ qs)] at hjoined
  exact (joined_unique (by decide) (by decide) hps hqs closes_nil closes_nil hjoined).1

end Sexp

end LoxLang
