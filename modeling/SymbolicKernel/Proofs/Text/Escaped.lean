import Mathlib.Algebra.Ring.Parity
import Mathlib.Data.List.Induction
import SymbolicKernel.Expr.Printer

namespace SymbolicKernel

namespace Text

/-- What a backslash and a letter stand for: the character of the escape, or the two themselves if there is no such
escape. -/
def escaped (letter : Char) : List Char :=
  match unescape letter with
  | some c => [c]
  | none => ['\\', letter]

theorem decode_cons_of_ne {c : Char} (plain : c ≠ '\\') (rest : List Char) : decode (c :: rest) = c :: decode rest := by
  cases rest with
  | nil => rfl
  | cons d rest => rw [decode, if_neg plain]

theorem decode_backslash_cons (letter : Char) (rest : List Char) :
    decode ('\\' :: letter :: rest) = escaped letter ++ decode rest := by
  rw [decode, if_pos rfl, escaped]
  cases unescape letter <;> rfl

/-- Decoding undoes any protection of single characters that does not leave out the backslash and puts a backslash in
front of such characters only as stand for themselves behind one. -/
theorem decode_protected {p : Char → Prop} [DecidablePred p] (backslash : p '\\')
    (known : ∀ c, p c → unescape c = some c) (text : List Char) :
    decode (text.flatMap fun c => if p c then ['\\', c] else [c]) = text := by
  induction text with
  | nil => rfl
  | cons c text ih =>
    rw [List.flatMap_cons]
    by_cases guarded : p c
    · rw [if_pos guarded, List.cons_append, List.singleton_append, decode_backslash_cons, escaped, known c guarded, ih,
        List.singleton_append]
    · have plain : c ≠ '\\' := by
        rintro rfl
        exact guarded backslash
      rw [if_neg guarded, List.singleton_append, decode_cons_of_ne plain, ih]

theorem decode_protect_backslash (text : List Char) : decode (protect '\\' text) = text := by
  apply decode_protected (p := (· = '\\')) rfl
  rintro c rfl
  rfl

/-- The quotes are protected in a second pass over the text, but its outcome can be told character by character: a
backslash has become two of them by then, and none is added to these. -/
theorem protect_quote_protect_backslash (text : List Char) :
    protect '"' (protect '\\' text) = text.flatMap fun c => if c = '"' ∨ c = '\\' then ['\\', c] else [c] := by
  rw [protect, protect, List.flatMap_assoc]
  congr 1
  funext c
  by_cases backslash : c = '\\'
  · subst backslash
    rfl
  · by_cases quote : c = '"'
    · subst quote
      rfl
    · simp [backslash, quote]

theorem decode_protect_quote_protect_backslash (text : List Char) :
    decode (protect '"' (protect '\\' text)) = text := by
  rw [protect_quote_protect_backslash]
  apply decode_protected (p := fun c => c = '"' ∨ c = '\\') (.inr rfl)
  rintro c (rfl | rfl) <;> rfl

/-- Number of the backslashes that a text ends in, one after the other. -/
def trailingBackslashes (text : List Char) : Nat :=
  (text.reverse.takeWhile (· = '\\')).length

@[simp] theorem trailingBackslashes_nil : trailingBackslashes [] = 0 := rfl

theorem trailingBackslashes_backslash (text : List Char) :
    trailingBackslashes (text ++ ['\\']) = trailingBackslashes text + 1 := by
  simp [trailingBackslashes]

theorem trailingBackslashes_of_ne (text : List Char) {c : Char} (plain : c ≠ '\\') :
    trailingBackslashes (text ++ [c]) = 0 := by
  simp [trailingBackslashes, plain]

/-- Whether a pass from the left has ended behind a backslash that still waits for the character after it. -/
def isWaiting (text : List Char) : Bool :=
  text.foldl (fun waiting c => !waiting && c == '\\') false

/-- The pass from the left agrees with the count from the right: the last backslash waits if it was not taken by the
one before it, and that one was taken by the one before it, and so on to the first of the run. -/
theorem isWaiting_iff (text : List Char) : isWaiting text = true ↔ Odd (trailingBackslashes text) := by
  induction text using List.reverseRecOn with
  | nil => simp [isWaiting]
  | append_singleton text c ih =>
    have step : isWaiting (text ++ [c]) = (!isWaiting text && c == '\\') := by simp [isWaiting]
    by_cases backslash : c = '\\'
    · subst backslash
      rw [step, trailingBackslashes_backslash, Nat.odd_add_one, ← ih]
      simp
    · rw [step, trailingBackslashes_of_ne text backslash]
      simp [backslash]

theorem isWaiting_backslash_cons (letter : Char) (rest : List Char) :
    isWaiting ('\\' :: letter :: rest) = isWaiting rest := rfl

theorem isWaiting_cons_of_ne {c : Char} (plain : c ≠ '\\') (rest : List Char) :
    isWaiting (c :: rest) = isWaiting rest := by
  simp [isWaiting, beq_false_of_ne plain]

/-- Behind a text that leaves no backslash waiting, decoding starts afresh. -/
theorem decode_append {a : List Char} (free : isWaiting a = false) (b : List Char) :
    decode (a ++ b) = decode a ++ decode b := by
  induction a using decode.induct with
  | case1 => rfl
  | case2 c =>
    -- A last backslash would wait for the first character of the second piece.
    have plain : c ≠ '\\' := by
      rintro rfl
      cases free
    exact decode_cons_of_ne plain b
  | case3 letter rest _ _ ih | case4 letter rest _ ih =>
    -- A pair is decoded as a whole, an escape or not, and behind it the pass stands as at its beginning.
    rw [isWaiting_backslash_cons] at free
    rw [List.cons_append, List.cons_append, decode_backslash_cons, decode_backslash_cons, ih free, List.append_assoc]
  | case5 c d rest plain ih =>
    rw [isWaiting_cons_of_ne plain] at free
    rw [List.cons_append, decode_cons_of_ne plain, ih free, decode_cons_of_ne plain, List.cons_append]

theorem exists_front_of_odd {a : List Char} (odd : Odd (trailingBackslashes a)) :
    ∃ front, a = front ++ ['\\'] ∧ Even (trailingBackslashes front) := by
  cases a using List.reverseRecOn with
  | nil => simp at odd
  | append_singleton front c =>
    have backslash : c = '\\' := by
      by_contra plain
      simp [trailingBackslashes_of_ne front plain] at odd
    subst backslash
    rw [trailingBackslashes_backslash, Nat.odd_add_one, Nat.not_odd_iff_even] at odd
    exact ⟨front, rfl, odd⟩

theorem isWaiting_of_even {a : List Char} (even : Even (trailingBackslashes a)) : isWaiting a = false := by
  rw [Bool.eq_false_iff, ne_eq, isWaiting_iff, Nat.not_odd_iff_even]
  exact even

/-- A text can be decoded in two pieces that are cut anywhere but behind a backslash that is not used up, which is
told by the length of the run of backslashes before the cut. If the last one is left over, it goes with the second
piece and forms a pair with the first character there. -/
theorem decodeString_append_of_parity (a b : String) :
    (Even (trailingBackslashes a.toList) → decodeString (a ++ b) = decodeString a ++ decodeString b) ∧
      (Odd (trailingBackslashes a.toList) → ∃ front, a = front ++ "\\" ∧
        decodeString (a ++ b) = decodeString front ++ decodeString ("\\" ++ b) ∧
        ∀ letter rest, b = String.singleton letter ++ rest →
          decodeString ("\\" ++ b) = String.ofList (escaped letter) ++ decodeString rest) := by
  constructor
  · intro even
    rw [decodeString, String.toList_append, decode_append (isWaiting_of_even even), String.ofList_append]
    rfl
  · intro odd
    obtain ⟨front, split, even⟩ := exists_front_of_odd odd
    refine ⟨String.ofList front, ?_, ?_, ?_⟩
    · rw [← String.toList_inj, split, String.toList_append, String.toList_ofList]
      rfl
    · have cut : (a ++ b).toList = front ++ '\\' :: b.toList := by simp [split]
      rw [decodeString, cut, decode_append (isWaiting_of_even even), String.ofList_append]
      simp [decodeString]
    · rintro letter rest rfl
      simp [decodeString, decode_backslash_cons]

/-- Three backslashes in a row: with the first two read as one, the third makes a line feed with the letter behind the
cut. Cut in front of it, the text falls into two that are decoded apart. -/
theorem decodeString_append_of_parity_three_backslashes :
    Odd (trailingBackslashes "C:\\\\\\".toList) ∧ Even (trailingBackslashes "C:\\\\".toList) ∧
      decodeString ("C:\\\\" ++ "\\new") = decodeString "C:\\\\" ++ decodeString "\\new" ∧
      ∃ front, "C:\\\\\\" = front ++ "\\" ∧
        decodeString ("C:\\\\\\" ++ "new") = decodeString front ++ decodeString ("\\" ++ "new") ∧
        decodeString ("\\" ++ "new") = "\n" ++ decodeString "ew" := by
  have odd : Odd (trailingBackslashes "C:\\\\\\".toList) := by decide
  have even : Even (trailingBackslashes "C:\\\\".toList) := by decide
  obtain ⟨front, split, apart, pair⟩ := (decodeString_append_of_parity "C:\\\\\\" "new").2 odd
  exact ⟨odd, even, (decodeString_append_of_parity _ _).1 even, front, split, apart, pair 'n' "ew" rfl⟩

theorem unquote_quoted (inner : List Char) : unquote ('"' :: inner ++ ['"']) = inner := by
  simp [unquote]

theorem unquote_of_not_quoted {text : List Char} (bare : ∀ inner, text ≠ '"' :: inner ++ ['"']) :
    unquote text = text := by
  unfold unquote
  split
  · rename_i rest
    split
    · rename_i last
      obtain ⟨inner, rfl⟩ := List.getLast?_eq_some_iff.mp last
      exact absurd rfl (bare inner)
    · rfl
  · rfl

theorem decodeString_decodeFilename (raw : String) :
    decodeString (decodeFilename raw) = decodeString (String.ofList (unquote raw.toList)) := by
  simp [decodeString, decodeFilename, decode_protect_backslash]

theorem quotedText_eq (text : String) :
    Expr.quotedText text = "\"" ++ String.ofList (protect '"' (protect '\\' text.toList)) ++ "\"" := by
  rw [Expr.quotedText, String.ofList_append, ← List.singleton_append, String.ofList_append]

/-- What is written for a text is decoded to it once the quotes at its two ends are taken off, and the text that is
made of a file name is decoded to what stands between the quotes of the name, or to the whole name if it is not between
two quotes. -/
theorem written_texts_decode :
    (∀ text : String, ∃ inner, (Expr.string text).text = "\"" ++ inner ++ "\"" ∧ decodeString inner = text) ∧
      (∀ inner, decodeString (decodeFilename ("\"" ++ inner ++ "\"")) = decodeString inner) ∧
      ∀ raw, (∀ inner, raw ≠ "\"" ++ inner ++ "\"") → decodeString (decodeFilename raw) = decodeString raw := by
  refine ⟨fun text => ?_, fun inner => ?_, fun raw bare => ?_⟩
  · refine ⟨String.ofList (protect '"' (protect '\\' text.toList)), ?_, ?_⟩
    · rw [Expr.text, quotedText_eq]
    · simp [decodeString, decode_protect_quote_protect_backslash]
  · have quoted : ("\"" ++ inner ++ "\"").toList = '"' :: inner.toList ++ ['"'] := by simp
    rw [decodeString_decodeFilename, quoted, unquote_quoted, String.ofList_toList]
  · have bare' : ∀ inner, raw.toList ≠ '"' :: inner ++ ['"'] := by
      intro inner same
      apply bare (String.ofList inner)
      rw [← String.toList_inj, same]
      simp
    rw [decodeString_decodeFilename, unquote_of_not_quoted bare', String.ofList_toList]

/-- A lone quote is not between two quotes, and a text that looks like an escape before it is written still is that
text after it is read. -/
theorem written_texts_decode_of_lone_quote :
    (∀ inner, "\"" ≠ "\"" ++ inner ++ "\"") ∧ decodeString (decodeFilename "\"") = decodeString "\"" ∧
      ∃ inner, (Expr.string "\\n\"\\").text = "\"" ++ inner ++ "\"" ∧ decodeString inner = "\\n\"\\" := by
  have lone : ∀ inner, "\"" ≠ "\"" ++ inner ++ "\"" := by
    intro inner same
    have length := congrArg String.length same
    simp at length
  exact ⟨lone, written_texts_decode.2.2 _ lone, written_texts_decode.1 _⟩

end Text

end SymbolicKernel
