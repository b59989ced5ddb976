import Mathlib.Tactic.TFAE
import SymbolicKernel.Proofs.Symbol.Name

namespace SymbolicKernel

/-- What stands before, between and behind the marks of a text. -/
def segments (text : List Char) : List (List Char) :=
  text.splitOn contextMark

def NoEmptySegment (text : List Char) : Prop :=
  ∀ segment ∈ segments text, segment ≠ []

theorem segments_nil : segments [] = [[]] := by
  simp [segments]

theorem segments_append_mark_cons (a b : List Char) :
    segments (a ++ contextMark :: b) = segments a ++ segments b := by
  simp [segments, List.splitOn_eq_splitOnP, List.splitOnP_append_cons]

theorem segments_mark_cons (rest : List Char) : segments (contextMark :: rest) = [] :: segments rest := by
  simpa [segments_nil] using segments_append_mark_cons [] rest

theorem segments_of_notMem {text : List Char} (unmarked : contextMark ∉ text) : segments text = [text] := by
  rw [segments, List.splitOn_eq_splitOnP, List.splitOnP_eq_singleton]
  intro c member
  exact beq_false_of_ne fun same => unmarked (same ▸ member)

/-- A character that is no mark lengthens the first segment and leaves the others. -/
theorem segments_cons_of_ne {c : Char} (plain : c ≠ contextMark) (rest : List Char) :
    ∃ first others, segments rest = first :: others ∧ segments (c :: rest) = (c :: first) :: others := by
  obtain ⟨first, others, split⟩ := List.exists_cons_of_ne_nil (List.splitOnP_ne_nil (· == contextMark) rest)
  refine ⟨first, others, split, ?_⟩
  rw [segments, List.splitOn_eq_splitOnP, List.splitOnP_cons_eq_if_modifyHead, split]
  simp [plain]

theorem noEmptySegment_iff_tail (text : List Char) :
    NoEmptySegment text ↔
      text ≠ [] ∧ text.head? ≠ some contextMark ∧ ∀ segment ∈ (segments text).tail, segment ≠ [] := by
  cases text with
  | nil => simp [NoEmptySegment, segments_nil]
  | cons c rest =>
    by_cases mark : c = contextMark
    · subst mark
      simp [NoEmptySegment, segments_mark_cons]
    · obtain ⟨first, others, _, split⟩ := segments_cons_of_ne mark rest
      simp [NoEmptySegment, split, mark]

/-- Behind the first segment none is empty exactly when no mark is followed by another one or by the end. -/
theorem tail_segments_iff (text : List Char) :
    (∀ segment ∈ (segments text).tail, segment ≠ []) ↔
      text.getLast? ≠ some contextMark ∧ hasDoubleMark text = false := by
  induction text with
  | nil => simp [segments_nil, hasDoubleMark]
  | cons c rest ih =>
    by_cases mark : c = contextMark
    · subst mark
      -- All segments of the rest count now, also the first, which is empty if another mark follows.
      rw [segments_mark_cons, List.tail_cons]
      change NoEmptySegment rest ↔ _
      rw [noEmptySegment_iff_tail, ih]
      cases rest with
      | nil => simp
      | cons d rest =>
        rw [List.getLast?_cons_cons, hasDoubleMark]
        simp only [ne_eq, reduceCtorEq, not_false_eq_true, List.head?_cons, Option.some.injEq, beq_self_eq_true,
          Bool.true_and, Bool.or_eq_false_iff, beq_eq_false_iff_ne, true_and]
        tauto
    · obtain ⟨first, others, before, after⟩ := segments_cons_of_ne mark rest
      rw [before] at ih
      rw [after, List.tail_cons]
      refine ih.trans ?_
      cases rest with
      | nil => simp [hasDoubleMark, mark]
      | cons d rest => rw [List.getLast?_cons_cons, hasDoubleMark, beq_false_of_ne mark, Bool.false_and, Bool.false_or]

/-- What the checks of a context test one by one. -/
theorem noEmptySegment_iff (text : List Char) :
    NoEmptySegment text ↔ text ≠ [] ∧ text.head? ≠ some contextMark ∧ text.getLast? ≠ some contextMark ∧
      hasDoubleMark text = false := by
  rw [noEmptySegment_iff_tail, tail_segments_iff]

theorem hasDoubleMark_append_mark (text : List Char) :
    hasDoubleMark (text ++ [contextMark]) = false ↔
      text.getLast? ≠ some contextMark ∧ hasDoubleMark text = false := by
  induction text with
  | nil => simp [hasDoubleMark]
  | cons c rest ih =>
    cases rest with
    | nil => simp [hasDoubleMark]
    | cons d rest =>
      rw [List.cons_append] at ih
      rw [List.cons_append, List.cons_append, hasDoubleMark, Bool.or_eq_false_iff, ih, List.getLast?_cons_cons,
        hasDoubleMark, Bool.or_eq_false_iff]
      tauto

/-- A text with a mark in it falls into what stands before the last one and what stands behind it. -/
theorem exists_lastMark {text : List Char} (marked : contextMark ∈ text) :
    ∃ before after, text = before ++ contextMark :: after ∧ contextMark ∉ after := by
  obtain ⟨after, before, split, unmarked⟩ := List.eq_append_cons_of_mem (List.mem_reverse.mpr marked)
  refine ⟨before.reverse, after.reverse, ?_, by simpa using unmarked⟩
  rw [← List.reverse_inj, split]
  simp

namespace QualifiedName
variable {context name raw : String} {q : QualifiedName}

theorem mark_mem_join (context name : String) : contextMark ∈ (join context name).toList := by
  simp [join_toList]

theorem exists_join (marked : contextMark ∈ raw.toList) :
    ∃ context name, raw = join context name ∧ contextMark ∉ name.toList := by
  obtain ⟨before, after, split, unmarked⟩ := exists_lastMark marked
  refine ⟨String.ofList before, String.ofList after, ?_, by simpa using unmarked⟩
  rw [← String.toList_inj, split, join_toList, String.toList_ofList, String.toList_ofList]

/-- The five tests of the parts say about the joined text that no segment is empty. That the mark between the parts is
the last one has to be asked apart. -/
theorem wellFormed_iff :
    WellFormed context name ↔ contextMark ∉ name.toList ∧ NoEmptySegment (join context name).toList := by
  rw [NoEmptySegment, join_toList, segments_append_mark_cons, List.forall_mem_append]
  change _ ↔ _ ∧ NoEmptySegment _ ∧ _
  rw [noEmptySegment_iff, WellFormed]
  by_cases unmarked : contextMark ∉ name.toList
  · rw [segments_of_notMem unmarked, List.forall_mem_singleton]
    simp only [ne_eq, String.toList_eq_nil_iff]
    tauto
  · tauto

theorem ofParts_ok_iff : ofParts context name = .ok q ↔ q.context = context ∧ q.name = name := by
  rw [ofParts]
  split
  · rename_i wellFormed
    rw [Except.ok.injEq]
    constructor
    · rintro rfl
      exact ⟨rfl, rfl⟩
    · rintro ⟨rfl, rfl⟩
      rfl
  · rename_i malformed
    constructor
    · intro made
      cases made
    · rintro ⟨rfl, rfl⟩
      exact absurd q.wellFormed malformed

theorem exists_ofParts_iff : (∃ q, ofParts context name = .ok q) ↔ WellFormed context name := by
  simp only [ofParts_ok_iff]
  constructor
  · rintro ⟨q, rfl, rfl⟩
    exact q.wellFormed
  · intro wellFormed
    exact ⟨⟨context, name, wellFormed⟩, rfl, rfl⟩

theorem ofParts_of_malformed (malformed : ¬ WellFormed context name) :
    ofParts context name = .error ⟨join context name⟩ := by
  rw [ofParts, dif_neg malformed]

/-- Joined parts are taken apart at the mark between them if the second one holds none. -/
theorem parse_join (unmarked : contextMark ∉ name.toList) : parse (join context name) = ofParts context name := by
  rw [parse, join_toList, splitAtLastMark_append _ unmarked]
  simp only [String.ofList_toList]
  by_cases wellFormed : WellFormed context name
  · obtain ⟨q, made⟩ := exists_ofParts_iff.mpr wellFormed
    rw [made]
  · rw [ofParts_of_malformed wellFormed]

theorem parse_of_notMem (unmarked : contextMark ∉ raw.toList) :
    parse raw = if raw = "" then .error ⟨raw⟩ else ofParts systemContext raw := by
  rw [parse, splitAtLastMark_of_notMem unmarked]

theorem exists_parse_iff : (∃ q, parse raw = .ok q) ↔ NoEmptySegment raw.toList := by
  by_cases marked : contextMark ∈ raw.toList
  · obtain ⟨context, name, rfl, unmarked⟩ := exists_join marked
    rw [parse_join unmarked, exists_ofParts_iff, wellFormed_iff, and_iff_right unmarked]
  · rw [parse_of_notMem marked, NoEmptySegment, segments_of_notMem marked, List.forall_mem_singleton]
    by_cases empty : raw = ""
    · simp [empty]
    · have system : WellFormed systemContext raw :=
        ⟨by decide, empty, marked, by decide, by decide, by decide⟩
      rw [if_neg empty, exists_ofParts_iff, ne_eq, String.toList_eq_nil_iff]
      exact iff_of_true system empty

theorem text_of_parse (read : parse raw = .ok q) :
    q.text = if contextMark ∈ raw.toList then raw else join systemContext raw := by
  by_cases marked : contextMark ∈ raw.toList
  · rw [if_pos marked]
    obtain ⟨context, name, rfl, unmarked⟩ := exists_join marked
    rw [parse_join unmarked] at read
    obtain ⟨rfl, rfl⟩ := ofParts_ok_iff.mp read
    rfl
  · rw [parse_of_notMem marked] at read
    split at read
    · cases read
    · obtain ⟨context, rfl⟩ := ofParts_ok_iff.mp read
      rw [if_neg marked, text, context]

theorem isQualifiedContext_iff (named : name ≠ "") (unmarked : contextMark ∉ name.toList) :
    isQualifiedContext false (context ++ contextMark.toString) = true ↔ WellFormed context name := by
  have marked : (context ++ contextMark.toString).toList = context.toList ++ [contextMark] := by
    simp [Char.toString]
  have head : (context.toList ++ [contextMark]).head? ≠ some contextMark ↔
      context ≠ "" ∧ context.toList.head? ≠ some contextMark := by
    rw [ne_eq context, ← String.toList_eq_nil_iff]
    cases context.toList <;> simp
  rw [isQualifiedContext, marked, WellFormed, decide_eq_true_iff, hasDoubleMark_append_mark, head]
  simp only [List.getLast?_append, List.getLast?_singleton, Option.some_or, Bool.false_eq_true, false_or, true_and]
  tauto

/-- What a name is completed to in a context, before it is checked. -/
def completion (name context : String) : String :=
  if name.toList.head? = some contextMark then context ++ name
  else if contextMark ∈ name.toList then name
  else join context name

theorem completion_of_notMem (unmarked : contextMark ∉ name.toList) (context : String) :
    completion name context = join context name := by
  have inside : name.toList.head? ≠ some contextMark := fun first => unmarked (List.mem_of_head? first)
  rw [completion, if_neg inside, if_neg unmarked]

/-- Whichever way a name is completed, a mark is in it then. -/
theorem mark_mem_completion (name context : String) : contextMark ∈ (completion name context).toList := by
  rw [completion]
  split
  · rename_i first
    simp [List.mem_of_head? first]
  · split
    · assumption
    · exact mark_mem_join context name

theorem qualify_ok_iff {completed : String} :
    qualify name context = .ok completed ↔
      name ≠ "" ∧ completion name context = completed ∧ ∃ q, parse completed = .ok q := by
  by_cases empty : name = ""
  · simp [qualify, empty]
  · have spec : qualify name context = (parse (completion name context)).map fun _ => completion name context := by
      rw [qualify, if_neg empty]
      rfl
    rw [spec]
    cases read : parse (completion name context) with
    | error e =>
      refine iff_of_false nofun ?_
      rintro ⟨_, rfl, q, again⟩
      cases read.symm.trans again
    | ok q =>
      rw [Except.map, Except.ok.injEq]
      constructor
      · rintro rfl
        exact ⟨empty, rfl, q, read⟩
      · exact fun made => made.2.1

/-- A name that can be read and holds a mark is complete: no context changes it. -/
theorem qualify_of_parse (marked : contextMark ∈ raw.toList) (read : parse raw = .ok q) (context : String) :
    qualify raw context = .ok raw := by
  obtain ⟨nonempty, inside, _⟩ := (noEmptySegment_iff _).mp (exists_parse_iff.mp ⟨q, read⟩)
  have named : raw ≠ "" := fun empty => nonempty (by simp [empty])
  refine qualify_ok_iff.mpr ⟨named, ?_, q, read⟩
  rw [completion, if_neg inside, if_pos marked]

/-- All checks of names accept the same names: those without an empty segment. What is read from a name is written back
as the name, in the system context if it had none, and a completed name stays as it is, seen from any context. -/
theorem name_checks_agree :
    (∀ raw, (∃ q, parse raw = .ok q) ↔ NoEmptySegment raw.toList) ∧
      (∀ raw q, parse raw = .ok q →
        q.text = (if contextMark ∈ raw.toList then raw else join systemContext raw) ∧ parse q.text = .ok q) ∧
      (∀ context name, name ≠ "" → contextMark ∉ name.toList →
        [∃ q, ofParts context name = .ok q, ∃ q, parse (join context name) = .ok q,
          ∃ completed, qualify name context = .ok completed,
          isQualifiedContext false (context ++ contextMark.toString) = true].TFAE ∧
        parse (join context name) = ofParts context name) ∧
      ∀ name context completed, qualify name context = .ok completed →
        (∃ q, parse completed = .ok q ∧ q.text = completed) ∧
        ∀ other, qualify completed other = .ok completed := by
  refine ⟨fun raw => exists_parse_iff, fun raw q read => ⟨text_of_parse read, parse_text q⟩, ?_, ?_⟩
  · intro context name named unmarked
    refine ⟨?_, parse_join unmarked⟩
    tfae_have 1 ↔ 2 := by rw [parse_join unmarked]
    tfae_have 2 ↔ 3 := by
      simp only [qualify_ok_iff, completion_of_notMem unmarked]
      exact ⟨fun read => ⟨_, named, rfl, read⟩, fun ⟨_, _, joined, read⟩ => joined ▸ read⟩
    tfae_have 1 ↔ 4 := by rw [exists_ofParts_iff, isQualifiedContext_iff named unmarked]
    tfae_finish
  · intro name context completed made
    obtain ⟨_, rfl, q, read⟩ := qualify_ok_iff.mp made
    have marked := mark_mem_completion name context
    refine ⟨⟨q, read, ?_⟩, qualify_of_parse marked read⟩
    rw [text_of_parse read, if_pos marked]

theorem name_checks_agree_of_relative_name :
    (∃ q, parse "x" = .ok q ∧ q.text = "System`x" ∧ parse q.text = .ok q) ∧
      ("x" ≠ "" ∧ contextMark ∉ "x".toList ∧ parse (join "A``B" "x") = ofParts "A``B" "x") ∧
      qualify "`x" "Global`Private" = .ok "Global`Private`x" ∧
      ∀ other, qualify "Global`Private`x" other = .ok "Global`Private`x" := by
  have bare : parse "x" = .ok ⟨systemContext, "x", by decide⟩ := by rfl
  have named : "x" ≠ "" := by decide
  have unmarked : contextMark ∉ "x".toList := by decide
  have completed : qualify "`x" "Global`Private" = .ok "Global`Private`x" := by rfl
  obtain ⟨_, readBack, together, complete⟩ := name_checks_agree
  exact ⟨⟨_, bare, readBack _ _ bare⟩, ⟨named, unmarked, (together "A``B" "x" named unmarked).2⟩, completed,
    (complete _ _ _ completed).2⟩

end QualifiedName

end SymbolicKernel
