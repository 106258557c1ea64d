import DirectCall.Descriptor.Method
import Mathlib.Data.List.Basic
import Mathlib.Data.List.TakeWhile

/-!
# The grammar of method descriptors

A type is read exactly if it is well formed, and reading it uses up its characters and nothing else
(`readType_sound`, `readType_complete`). So the parameter types of a descriptor are settled by the
text up to the closing parenthesis, whatever follows.

The grammar is written down on texts as well: field types between parentheses, and a field type or `V` behind
them. A text is parsed exactly if the grammar has it, and into the pieces that the grammar names
(`parse_exact`); so a descriptor splits up in one way only.
-/

namespace DirectCall

namespace TypeText

theorem toList_text (t : TypeText) : t.text.toList = t.chars := String.toList_ofList

/-- A type as the reader can meet it. -/
def WellFormed : TypeText → Prop
  | void => True
  | primitive _ => True
  | object name => ';' ∉ name
  | array dimensions element =>
    0 < dimensions ∧ dimensions ≤ 255 ∧ element.WellFormed ∧
      match element with
      | array _ _ => False
      | _ => True

end TypeText

namespace MethodDescriptor

open TypeText

theorem ofLetter?_eq_some {c : Char} {p : Primitive} :
    Primitive.ofLetter? c = some p ↔ c = p.letter := by
  constructor
  · intro h
    have := List.find?_some h
    simpa [eq_comm] using this
  · rintro rfl
    cases p <;> rfl

theorem splitSemicolon (name rest : List Char) (h : ';' ∉ name) :
    (name ++ ';' :: rest).takeWhile (· ≠ ';') = name ∧
      (name ++ ';' :: rest).dropWhile (· ≠ ';') = ';' :: rest := by
  have hname : ∀ c ∈ name, decide (c ≠ ';') = true := by
    intro c hc
    rw [decide_eq_true_iff]
    rintro rfl
    exact h hc
  constructor
  · rw [List.takeWhile_append_of_pos hname]
    simp
  · rw [List.dropWhile_append_of_pos hname]
    simp

/-! ## One type -/

theorem readElement_sound {text rest : List Char} {t : TypeText}
    (h : readElement text = .ok (some t, rest)) :
    t.WellFormed ∧ (∀ dimensions element, t ≠ .array dimensions element) ∧
      text = t.chars ++ rest := by
  unfold readElement at h
  split at h
  · simp at h
  · simp at h
  · simp only [Except.ok.injEq, Prod.mk.injEq, Option.some.injEq] at h
    obtain ⟨rfl, rfl⟩ := h
    exact ⟨trivial, by simp, rfl⟩
  · rename_i name
    split at h
    · simp at h
    · rename_i c after hdrop
      simp only [Except.ok.injEq, Prod.mk.injEq, Option.some.injEq] at h
      obtain ⟨rfl, rfl⟩ := h
      have hc : c = ';' := by
        have hhead := List.head?_dropWhile_not (fun c => decide (c ≠ ';')) name
        rw [hdrop] at hhead
        simpa using hhead
      have hjoin := List.takeWhile_append_dropWhile (p := fun c => decide (c ≠ ';')) (l := name)
      refine ⟨fun hmem => ?_, by simp, ?_⟩
      · have := List.mem_takeWhile_imp hmem
        simp at this
      · rw [hdrop, hc] at hjoin
        simp only [TypeText.chars, List.cons_append, List.append_assoc, List.nil_append]
        rw [hjoin]
  · split at h
    · rename_i p hp
      simp only [Except.ok.injEq, Prod.mk.injEq, Option.some.injEq] at h
      obtain ⟨rfl, rfl⟩ := h
      rw [ofLetter?_eq_some] at hp
      exact ⟨trivial, by simp, by simp [TypeText.chars, hp]⟩
    · simp at h

theorem readElement_close {text rest : List Char} (h : readElement text = .ok (none, rest)) :
    text = ')' :: rest := by
  unfold readElement at h
  split at h
  · simp at h
  · simp only [Except.ok.injEq, Prod.mk.injEq, true_and] at h
    rw [h]
  · simp at h
  · split at h <;> simp at h
  · split at h <;> simp at h

theorem readElement_complete {t : TypeText} (h : t.WellFormed)
    (helement : ∀ dimensions element, t ≠ .array dimensions element) (rest : List Char) :
    readElement (t.chars ++ rest) = .ok (some t, rest) := by
  cases t with
  | void => rfl
  | primitive p => cases p <;> rfl
  | object name =>
    have hsplit := splitSemicolon name rest h
    simp only [TypeText.chars, List.cons_append, List.append_assoc, List.nil_append, readElement,
      hsplit]
  | array dimensions element => exact absurd rfl (helement dimensions element)

theorem readType_brackets (dimensions : Nat) {text : List Char}
    (htext : ∀ rest, text ≠ '[' :: rest) :
    (List.replicate dimensions '[' ++ text).takeWhile (· = '[') = List.replicate dimensions '[' ∧
      (List.replicate dimensions '[' ++ text).dropWhile (· = '[') = text := by
  have hall : ∀ c ∈ List.replicate dimensions '[', decide (c = '[') = true := by
    intro c hc
    simp [List.eq_of_mem_replicate hc]
  have hstop : text.takeWhile (· = '[') = [] ∧ text.dropWhile (· = '[') = text := by
    cases text with
    | nil => simp
    | cons c rest =>
      have hc : c ≠ '[' := fun heq => htext rest (by rw [heq])
      simp [hc]
  rw [List.takeWhile_append_of_pos hall, List.dropWhile_append_of_pos hall, hstop.1, hstop.2]
  simp

/-- Brackets and what follows them. -/
theorem brackets_split (text : List Char) :
    text = List.replicate (text.takeWhile (· = '[')).length '[' ++ text.dropWhile (· = '[') := by
  have hbrackets : text.takeWhile (· = '[') =
      List.replicate (text.takeWhile (· = '[')).length '[' := by
    rw [List.eq_replicate_iff]
    exact ⟨rfl, fun c hc => by simpa using List.mem_takeWhile_imp hc⟩
  rw [← hbrackets, List.takeWhile_append_dropWhile]

theorem readType_sound {text rest : List Char} {t : TypeText}
    (h : readType text = .ok (some t, rest)) : t.WellFormed ∧ text = t.chars ++ rest := by
  unfold readType at h
  dsimp only at h
  split_ifs at h with hzero hmany
  · obtain ⟨hwf, _, htext⟩ := readElement_sound h
    exact ⟨hwf, htext⟩
  · split at h
    · simp at h
    · simp at h
    · rename_i element after helement
      simp only [Except.ok.injEq, Prod.mk.injEq, Option.some.injEq] at h
      obtain ⟨rfl, rfl⟩ := h
      obtain ⟨hwf, hplain, htext⟩ := readElement_sound helement
      refine ⟨⟨Nat.pos_of_ne_zero hzero, by omega, hwf, ?_⟩, ?_⟩
      · cases element with
        | array dimensions inner => exact hplain dimensions inner rfl
        | _ => trivial
      · conv_lhs => rw [brackets_split text, htext]
        rw [TypeText.chars, List.append_assoc]

theorem readType_close {text rest : List Char} (h : readType text = .ok (none, rest)) :
    text = ')' :: rest := by
  unfold readType at h
  dsimp only at h
  split_ifs at h
  · exact readElement_close h
  · split at h <;> simp at h

theorem chars_ne_bracket {t : TypeText} (helement : ∀ dimensions element, t ≠ .array dimensions element)
    (rest after : List Char) : t.chars ++ rest ≠ '[' :: after := by
  cases t with
  | void => simp [TypeText.chars]
  | primitive p => cases p <;> simp [TypeText.chars, Primitive.letter]
  | object name => simp [TypeText.chars]
  | array dimensions element => exact absurd rfl (helement dimensions element)

theorem readType_complete {t : TypeText} (h : t.WellFormed) (rest : List Char) :
    readType (t.chars ++ rest) = .ok (some t, rest) := by
  by_cases harray : ∃ dimensions element, t = .array dimensions element
  · obtain ⟨dimensions, element, rfl⟩ := harray
    obtain ⟨hpos, hmany, hwf, hplain⟩ := h
    have helement : ∀ dimensions inner, element ≠ .array dimensions inner := by
      rintro dimensions inner rfl
      exact hplain
    obtain ⟨htake, hdrop⟩ := readType_brackets dimensions (chars_ne_bracket helement rest)
    simp only [readType, TypeText.chars, List.append_assoc, htake, hdrop, List.length_replicate]
    rw [if_neg (by omega), if_neg (by omega), readElement_complete hwf helement]
  · have helement : ∀ dimensions element, t ≠ .array dimensions element :=
      fun dimensions element heq => harray ⟨dimensions, element, heq⟩
    obtain ⟨htake, _⟩ := readType_brackets 0 (chars_ne_bracket helement rest)
    simp only [List.replicate_zero, List.nil_append] at htake
    simp only [readType, htake, List.length_nil, if_true]
    exact readElement_complete h helement rest

theorem readType_close_complete (rest : List Char) :
    readType (')' :: rest) = .ok (none, rest) := by
  simp [readType, readElement]

/-! ## Parameters -/

theorem chars_ne_nil (t : TypeText) : t.chars ≠ [] := by
  induction t with
  | void => exact List.cons_ne_nil _ _
  | primitive p => exact List.cons_ne_nil _ _
  | object name => exact List.cons_ne_nil _ _
  | array dimensions element ih => exact List.append_ne_nil_of_right_ne_nil _ ih

/-- The characters of some types in a row. -/
def spelled (ts : List TypeText) : List Char := ts.flatMap TypeText.chars

theorem readParams_sound {fuel : Nat} {text rest : List Char} {ts : List TypeText}
    (h : readParams fuel text = .ok (ts, rest)) :
    (∀ t ∈ ts, t.WellFormed) ∧ text = spelled ts ++ ')' :: rest := by
  induction fuel generalizing text ts with
  | zero => simp [readParams] at h
  | succ fuel ih =>
    unfold readParams at h
    split at h
    · simp at h
    · rename_i after hclose
      simp only [Except.ok.injEq, Prod.mk.injEq] at h
      obtain ⟨rfl, rfl⟩ := h
      exact ⟨by simp, readType_close hclose⟩
    · rename_i t after htype
      split at h
      · simp at h
      · rename_i ts' after' hparams
        simp only [Except.ok.injEq, Prod.mk.injEq] at h
        obtain ⟨rfl, rfl⟩ := h
        obtain ⟨hwf, htext⟩ := readType_sound htype
        obtain ⟨hwf', htext'⟩ := ih hparams
        refine ⟨by simpa [hwf] using hwf', ?_⟩
        rw [htext, htext']
        simp [spelled]

theorem readParams_complete {ts : List TypeText} (h : ∀ t ∈ ts, t.WellFormed) (fuel : Nat)
    (hfuel : ts.length < fuel) (rest : List Char) :
    readParams fuel (spelled ts ++ ')' :: rest) = .ok (ts, rest) := by
  induction ts generalizing fuel with
  | nil =>
    obtain ⟨fuel, rfl⟩ : ∃ n, fuel = n + 1 := ⟨fuel - 1, by simp at hfuel; omega⟩
    simp [readParams, spelled, readType_close_complete]
  | cons t ts ih =>
    obtain ⟨fuel, rfl⟩ : ∃ n, fuel = n + 1 := ⟨fuel - 1, by simp at hfuel; omega⟩
    have hrest := ih (fun t' ht' => h t' (by simp [ht'])) fuel (by simpa using hfuel)
    have htype := readType_complete (h t (by simp)) (spelled ts ++ ')' :: rest)
    have htext : spelled (t :: ts) ++ ')' :: rest = t.chars ++ (spelled ts ++ ')' :: rest) := by
      simp [spelled]
    rw [readParams, htext, htype]
    simp only [hrest]

theorem length_le_spelled (ts : List TypeText) : ts.length ≤ (spelled ts).length := by
  induction ts with
  | nil => exact Nat.zero_le _
  | cons t ts ih =>
    have hchars : 0 < t.chars.length := List.length_pos_iff.mpr (chars_ne_nil t)
    rw [spelled, List.flatMap_cons, List.length_append, List.length_cons]
    rw [spelled] at ih
    omega

/-- Parameter types are settled by the text up to their parenthesis. -/
theorem eq_of_spelled {ts ts' : List TypeText} (h : ∀ t ∈ ts, t.WellFormed)
    (h' : ∀ t ∈ ts', t.WellFormed) {rest rest' : List Char}
    (heq : spelled ts ++ ')' :: rest = spelled ts' ++ ')' :: rest') : ts = ts' := by
  have hread := readParams_complete h (ts.length + ts'.length + 1) (by omega) rest
  have hread' := readParams_complete h' (ts.length + ts'.length + 1) (by omega) rest'
  rw [heq, hread'] at hread
  simp only [Except.ok.injEq, Prod.mk.injEq] at hread
  exact hread.1.symm

/-! ## Whole descriptors -/

theorem readTypes_sound {text rest : List Char} {ts : List TypeText} {ret : TypeText}
    (h : readTypes text = .ok (ts, ret, rest)) :
    (∀ t ∈ ts, t.WellFormed) ∧ ret.WellFormed ∧
      text = '(' :: (spelled ts ++ ')' :: (ret.chars ++ rest)) := by
  unfold readTypes at h
  split at h
  · rename_i text
    split at h
    · simp at h
    · rename_i ts' after hparams
      split at h
      · simp at h
      · simp at h
      · rename_i ret' after' hret
        simp only [Except.ok.injEq, Prod.mk.injEq] at h
        obtain ⟨rfl, rfl, rfl⟩ := h
        obtain ⟨hwf, hspelled⟩ := readParams_sound hparams
        obtain ⟨hwf', hafter⟩ := readType_sound hret
        exact ⟨hwf, hwf', by rw [hspelled, hafter]⟩
  · simp at h

theorem readTypes_complete {ts : List TypeText} {ret : TypeText} (hts : ∀ t ∈ ts, t.WellFormed)
    (hret : ret.WellFormed) (rest : List Char) :
    readTypes ('(' :: (spelled ts ++ ')' :: (ret.chars ++ rest))) = .ok (ts, ret, rest) := by
  have hlength : ts.length < (spelled ts ++ ')' :: (ret.chars ++ rest)).length + 1 := by
    rw [List.length_append, List.length_cons]
    have hparams := length_le_spelled ts
    omega
  simp only [readTypes, readParams_complete hts _ hlength, readType_complete hret]

/-- Printed again, the types that were read are the text exactly if nothing stands behind them. -/
theorem reprints_iff {text rest : List Char} {ts : List TypeText} {ret : TypeText}
    (h : readTypes text = .ok (ts, ret, rest)) :
    '(' :: (spelled ts ++ ')' :: ret.chars) = text ↔ rest = [] := by
  obtain ⟨_, _, rfl⟩ := readTypes_sound h
  rw [List.cons.injEq, List.append_cancel_left_eq, List.cons.injEq]
  simp

/-- A descriptor is its parameter types and its return type, and void is no type but of a return. -/
theorem parse_typed {descriptor : String} {parsed : MethodDescriptor}
    (h : parse descriptor = .ok parsed) :
    ∃ (ts : List TypeText) (ret : TypeText), (∀ t ∈ ts, t.WellFormed ∧ t.hasVoid = false) ∧
      ret.WellFormed ∧ (ret ≠ .void → ret.hasVoid = false) ∧
      descriptor.toList = '(' :: (spelled ts ++ ')' :: ret.chars) ∧
      parsed = ⟨ts.map (·.text), ret.text⟩ := by
  unfold parse at h
  split at h
  · simp at h
  · rename_i ts ret rest htypes
    obtain ⟨hwf, hwf', _⟩ := readTypes_sound htypes
    by_cases hrest : rest = []
    case neg => simp [hrest] at h
    rw [if_neg (not_not.mpr hrest)] at h
    split at h
    · simp at h
    · rename_i hnone
      by_cases hvoid : ret ≠ .void ∧ ret.hasVoid = true
      case pos => simp [hvoid] at h
      rw [if_neg hvoid, Except.ok.injEq] at h
      rw [not_and, Bool.not_eq_true] at hvoid
      refine ⟨ts, ret, fun t ht => ⟨hwf t ht, ?_⟩, hwf', hvoid, ((reprints_iff htypes).mpr hrest).symm, h.symm⟩
      exact Bool.eq_false_iff.mpr (List.find?_eq_none.mp hnone t ht)

/-- Types that are read and have void nowhere but as a return type are a descriptor. -/
theorem parse_complete {descriptor : String} {ts : List TypeText} {ret : TypeText}
    (hts : ∀ t ∈ ts, t.WellFormed ∧ t.hasVoid = false) (hret : ret.WellFormed)
    (hvoid : ret ≠ .void → ret.hasVoid = false)
    (htext : descriptor.toList = '(' :: (spelled ts ++ ')' :: ret.chars)) :
    parse descriptor = .ok ⟨ts.map (·.text), ret.text⟩ := by
  have hread := readTypes_complete (fun t ht => (hts t ht).1) hret []
  rw [List.append_nil, ← htext] at hread
  have hnone : ts.find? (·.hasVoid) = none :=
    List.find?_eq_none.mpr fun t ht => Bool.eq_false_iff.mp (hts t ht).2
  have hplain : ¬ (ret ≠ .void ∧ ret.hasVoid = true) := fun hret' => by simp [hvoid hret'.1] at hret'
  simp only [parse, hread, hnone, ne_eq, not_true_eq_false, if_false, if_neg hplain]

theorem parse_sound {descriptor : String} {parsed : MethodDescriptor}
    (h : parse descriptor = .ok parsed) :
    ∃ (ts : List TypeText) (ret : TypeText), (∀ t ∈ ts, t.WellFormed) ∧ ret.WellFormed ∧
      descriptor.toList = '(' :: (spelled ts ++ ')' :: ret.chars) ∧
      parsed = ⟨ts.map (·.text), ret.text⟩ := by
  obtain ⟨ts, ret, hts, hret, _, htext, hparsed⟩ := parse_typed h
  exact ⟨ts, ret, fun t ht => (hts t ht).1, hret, htext, hparsed⟩

/-! ## The last parenthesis -/

theorem beforeLast?_eq_some {separator : Char} {text before : List Char}
    (h : ClassName.beforeLast? separator text = some before) :
    ∃ behind, text = before ++ separator :: behind ∧ separator ∉ behind := by
  unfold ClassName.beforeLast? at h
  have hsplit := List.takeWhile_append_dropWhile (p := fun c => decide (c ≠ separator))
    (l := text.reverse)
  split at h
  · simp at h
  · rename_i c reversed hdrop
    have hhead := List.head?_dropWhile_not (fun c => decide (c ≠ separator)) text.reverse
    rw [hdrop] at hhead hsplit
    have hc : c = separator := by simpa using hhead
    refine ⟨(text.reverse.takeWhile fun c => decide (c ≠ separator)).reverse, ?_, fun hmem => ?_⟩
    · rw [← Option.some.inj h, ← hc]
      rw [hc] at hsplit ⊢
      have hreverse := congrArg List.reverse hsplit
      rw [List.reverse_reverse] at hreverse
      simpa using hreverse.symm
    · have := List.mem_takeWhile_imp (List.mem_reverse.mp hmem)
      simp at this

theorem beforeLast?_append {separator : Char} (before : List Char) {behind : List Char}
    (h : separator ∉ behind) :
    ClassName.beforeLast? separator (before ++ separator :: behind) = some before ∧
      ClassName.afterLast? separator (before ++ separator :: behind) = some behind := by
  have hall : ∀ c ∈ behind.reverse, decide (c ≠ separator) = true := by
    intro c hc
    rw [decide_eq_true_iff]
    rintro rfl
    exact h (List.mem_reverse.mp hc)
  have hreverse : (before ++ separator :: behind).reverse = behind.reverse ++ separator :: before.reverse := by
    simp
  constructor
  · rw [ClassName.beforeLast?, hreverse, List.dropWhile_append_of_pos hall]
    simp
  · rw [ClassName.afterLast?, if_pos (by simp), hreverse, List.takeWhile_append_of_pos hall]
    simp

/-- A text that agrees up to its last separator has every earlier split as well. -/
theorem split_of_before {separator : Char} {front rest before behind : List Char}
    (h : front ++ separator :: rest = before ++ separator :: behind) (hlast : separator ∉ behind)
    (behind' : List Char) :
    ∃ rest', before ++ separator :: behind' = front ++ separator :: rest' := by
  rcases List.append_eq_append_iff.mp h with ⟨between, hbefore, hrest⟩ | ⟨between, hfront, hbehind⟩
  · cases between with
    | nil => exact ⟨behind', by rw [hbefore, List.append_nil]⟩
    | cons c between =>
      obtain ⟨rfl, _⟩ := List.cons.inj hrest
      exact ⟨between ++ separator :: behind', by simp [hbefore]⟩
  · cases between with
    | nil => exact ⟨behind', by rw [hfront, List.append_nil]⟩
    | cons c between =>
      obtain ⟨_, hmem⟩ := List.cons.inj hbehind
      exact absurd (by simp [hmem]) hlast

/-- Two descriptors with one text ahead of the last parenthesis take the same parameters. -/
theorem params_eq_of_beforeLast? {descriptor descriptor' : String}
    {parsed parsed' : MethodDescriptor} (h : parse descriptor = .ok parsed)
    (h' : parse descriptor' = .ok parsed') {before : List Char}
    (hbefore : ClassName.beforeLast? ')' descriptor.toList = some before)
    (hbefore' : ClassName.beforeLast? ')' descriptor'.toList = some before) :
    parsed.params = parsed'.params := by
  obtain ⟨ts, ret, hwf, _, htext, rfl⟩ := parse_sound h
  obtain ⟨ts', ret', hwf', _, htext', rfl⟩ := parse_sound h'
  obtain ⟨behind, hsplit, hlast⟩ := beforeLast?_eq_some hbefore
  obtain ⟨behind', hsplit', _⟩ := beforeLast?_eq_some hbefore'
  rw [htext] at hsplit
  rw [← List.cons_append] at hsplit
  obtain ⟨rest, hrest⟩ := split_of_before hsplit hlast behind'
  rw [← hsplit', htext', List.cons_append, List.cons.injEq] at hrest
  rw [eq_of_spelled hwf' hwf hrest.2]

/-- The type of the result, read off the end of the descriptor. -/
theorem resultOf?_of_parse {descriptor : String} {parsed : MethodDescriptor}
    (h : parse descriptor = .ok parsed) (hclosing : ')' ∉ parsed.ret.toList) :
    resultOf? descriptor = if parsed.ret = "V" then none else some parsed.ret := by
  obtain ⟨ts, ret, _, _, _, htext, rfl⟩ := parse_typed h
  rw [TypeText.toList_text] at hclosing
  have hafter := (beforeLast?_append ('(' :: spelled ts) hclosing).2
  rw [List.cons_append, ← htext] at hafter
  have hvoid : ret.chars = ['V'] ↔ ret.text = "V" := by
    rw [← TypeText.toList_text, ← String.toList_inj]
    rfl
  rw [resultOf?, hafter]
  dsimp only
  rw [if_congr hvoid rfl rfl]
  rfl

end MethodDescriptor

/-! ## The language of descriptors -/

namespace Descriptor

/-- The text of a type that is no array: a letter, or a class, whose name is any text without a semicolon. -/
inductive IsElement : List Char → Prop
  | primitive (p : Primitive) : IsElement [p.letter]
  | object {name : List Char} (h : ';' ∉ name) : IsElement ('L' :: name ++ [';'])

/-- A field type is an element behind at most 255 brackets. -/
def IsFieldType (d : String) : Prop :=
  ∃ dimensions ≤ 255, ∃ element, IsElement element ∧ d.toList = List.replicate dimensions '[' ++ element

theorem IsElement.exists_type {text : List Char} (h : IsElement text) :
    ∃ t : TypeText, t.WellFormed ∧ t.hasVoid = false ∧ t.chars = text ∧
      ∀ dimensions element, t ≠ .array dimensions element := by
  cases h with
  | primitive p => exact ⟨.primitive p, trivial, rfl, rfl, by simp⟩
  | @object name h => exact ⟨.object name, h, rfl, rfl, by simp⟩

theorem isElement_chars {t : TypeText} (h : t.WellFormed) (hvoid : t.hasVoid = false)
    (helement : ∀ dimensions element, t ≠ .array dimensions element) : IsElement t.chars := by
  cases t with
  | void => cases hvoid
  | primitive p => exact .primitive p
  | object name => exact .object h
  | array dimensions element => exact absurd rfl (helement dimensions element)

/-- Field types are the texts of the types that the reader can meet, void left out. -/
theorem isFieldType_iff {d : String} :
    IsFieldType d ↔ ∃ t : TypeText, t.WellFormed ∧ t.hasVoid = false ∧ t.text = d := by
  constructor
  · rintro ⟨dimensions, hmany, text, helement, htext⟩
    obtain ⟨t, hwf, hvoid, rfl, hplain⟩ := helement.exists_type
    rcases Nat.eq_zero_or_pos dimensions with rfl | hpos
    · exact ⟨t, hwf, hvoid, by rw [← String.toList_inj, t.toList_text, htext]; rfl⟩
    · refine ⟨.array dimensions t, ⟨hpos, hmany, hwf, ?_⟩, hvoid, ?_⟩
      · cases t with
        | array dimensions' inner => exact hplain dimensions' inner rfl
        | _ => trivial
      · rw [← String.toList_inj, TypeText.toList_text, htext, TypeText.chars]
  · rintro ⟨t, hwf, hvoid, rfl⟩
    by_cases harray : ∃ dimensions element, t = .array dimensions element
    · obtain ⟨dimensions, element, rfl⟩ := harray
      obtain ⟨_, hmany, hwf, hinner⟩ := hwf
      refine ⟨dimensions, hmany, element.chars, isElement_chars hwf hvoid ?_, TypeText.toList_text _⟩
      rintro dimensions' inner rfl
      exact hinner
    · refine ⟨0, Nat.zero_le _, t.chars, isElement_chars hwf hvoid fun dimensions element heq => ?_,
        t.toList_text⟩
      exact harray ⟨dimensions, element, heq⟩

end Descriptor

namespace MethodDescriptor

open Descriptor (IsFieldType isFieldType_iff)

/-- The grammar has the descriptor, and these are its pieces. -/
structure Spells (m : MethodDescriptor) (descriptor : String) : Prop where
  params : ∀ param ∈ m.params, IsFieldType param
  ret : IsFieldType m.ret ∨ m.ret = "V"
  text : descriptor = "(" ++ String.join m.params ++ ")" ++ m.ret

theorem toList_join_text (ts : List TypeText) : (String.join (ts.map (·.text))).toList = spelled ts := by
  rw [String.toList_join, List.flatMap_map, spelled]
  exact congrArg (List.flatMap · ts) (funext TypeText.toList_text)

/-- The pieces of a descriptor make up its text. -/
theorem descriptor_eq_iff {descriptor : String} {ts : List TypeText} {ret : TypeText} :
    descriptor = "(" ++ String.join (ts.map (·.text)) ++ ")" ++ ret.text ↔
      descriptor.toList = '(' :: (spelled ts ++ ')' :: ret.chars) := by
  have htext : ("(" ++ String.join (ts.map (·.text)) ++ ")" ++ ret.text).toList =
      '(' :: (spelled ts ++ ')' :: ret.chars) := by
    simp only [String.toList_append, toList_join_text, TypeText.toList_text, List.append_assoc]
    rfl
  rw [← String.toList_inj, htext]

/-- What is read is spelled as the grammar asks. -/
theorem spells_of_parse {descriptor : String} {parsed : MethodDescriptor}
    (h : parse descriptor = .ok parsed) : parsed.Spells descriptor := by
  obtain ⟨ts, ret, hts, hret, hvoid, htext, rfl⟩ := parse_typed h
  refine ⟨fun param hparam => ?_, ?_, descriptor_eq_iff.mpr htext⟩
  · obtain ⟨t, ht, rfl⟩ := List.mem_map.mp hparam
    exact isFieldType_iff.mpr ⟨t, (hts t ht).1, (hts t ht).2, rfl⟩
  · by_cases heq : ret = .void
    · exact .inr (by rw [heq]; rfl)
    · exact .inl (isFieldType_iff.mpr ⟨ret, hret, hvoid heq, rfl⟩)

theorem exists_types {params : List String} (h : ∀ param ∈ params, IsFieldType param) :
    ∃ ts : List TypeText, (∀ t ∈ ts, t.WellFormed ∧ t.hasVoid = false) ∧ ts.map (·.text) = params := by
  induction params with
  | nil => exact ⟨[], by simp, rfl⟩
  | cons param rest ih =>
    obtain ⟨hparam, hrest⟩ := List.forall_mem_cons.mp h
    obtain ⟨t, hwf, hvoid, rfl⟩ := isFieldType_iff.mp hparam
    obtain ⟨ts, hts, rfl⟩ := ih hrest
    exact ⟨t :: ts, List.forall_mem_cons.mpr ⟨⟨hwf, hvoid⟩, hts⟩, rfl⟩

theorem exists_returnType {ret : String} (h : IsFieldType ret ∨ ret = "V") :
    ∃ t : TypeText, t.WellFormed ∧ (t ≠ .void → t.hasVoid = false) ∧ t.text = ret := by
  rcases h with h | rfl
  · obtain ⟨t, hwf, hvoid, rfl⟩ := isFieldType_iff.mp h
    exact ⟨t, hwf, fun _ => hvoid, rfl⟩
  · exact ⟨.void, trivial, fun hne => absurd rfl hne, rfl⟩

/-- What is spelled as the grammar asks is read. -/
theorem Spells.parse {descriptor : String} {m : MethodDescriptor} (h : m.Spells descriptor) :
    MethodDescriptor.parse descriptor = .ok m := by
  obtain ⟨params, ret⟩ := m
  obtain ⟨hparams, hret, htext⟩ := h
  obtain ⟨ts, hts, rfl⟩ := exists_types hparams
  obtain ⟨t, hwf, hvoid, rfl⟩ := exists_returnType hret
  exact parse_complete hts hwf hvoid (descriptor_eq_iff.mp htext)

/-- A parameter takes one slot, a `long` or `double` one more. -/
theorem paramSlots_eq (m : MethodDescriptor) :
    m.paramSlots = m.params.length + m.params.count "J" + m.params.count "D" := by
  obtain ⟨params, ret⟩ := m
  unfold paramSlots
  dsimp only
  induction params with
  | nil => rfl
  | cons param rest ih =>
    rw [List.foldr_cons, ih, List.length_cons, List.count_cons, List.count_cons]
    by_cases hlong : param = "J"
    · subst hlong
      simp [Descriptor.size, Descriptor.isWide]
      omega
    · by_cases hdouble : param = "D"
      · subst hdouble
        simp [Descriptor.size, Descriptor.isWide]
        omega
      · simp [Descriptor.size, Descriptor.isWide, hlong, hdouble]
        omega

/-- The descriptors that are parsed are those of the grammar, and the pieces are the ones that the grammar
has; put together again they are the descriptor. -/
theorem parse_exact (descriptor : String) :
    ((∃ parsed, parse descriptor = .ok parsed) ↔ ∃ m : MethodDescriptor, m.Spells descriptor) ∧
      ∀ parsed, parse descriptor = .ok parsed →
        (∀ m : MethodDescriptor, m.Spells descriptor ↔ m = parsed) ∧
          parsed.paramsDescriptor ++ parsed.ret = descriptor ∧
            parsed.paramSlots = parsed.params.length + parsed.params.count "J" + parsed.params.count "D" := by
  refine ⟨⟨fun ⟨parsed, h⟩ => ⟨parsed, spells_of_parse h⟩, fun ⟨m, h⟩ => ⟨m, h.parse⟩⟩, fun parsed h => ?_⟩
  refine ⟨fun m => ⟨fun hm => ?_, fun hm => hm ▸ spells_of_parse h⟩, ?_, paramSlots_eq parsed⟩
  · exact Except.ok.inj (hm.parse.symm.trans h)
  · exact (spells_of_parse h).text.symm

/-- Parameters of four kinds, two of them wide. -/
theorem parse_exact_mixed :
    parse "(I[JLjava/lang/String;DJ)Ljava/lang/Object;" =
        .ok ⟨["I", "[J", "Ljava/lang/String;", "D", "J"], "Ljava/lang/Object;"⟩ ∧
      (⟨["I", "[J", "Ljava/lang/String;", "D", "J"], "Ljava/lang/Object;"⟩ : MethodDescriptor).Spells
        "(I[JLjava/lang/String;DJ)Ljava/lang/Object;" ∧
      (⟨["I", "[J", "Ljava/lang/String;", "D", "J"], "Ljava/lang/Object;"⟩ : MethodDescriptor).paramSlots = 7 := by
  have hparsed : parse "(I[JLjava/lang/String;DJ)Ljava/lang/Object;" =
      .ok ⟨["I", "[J", "Ljava/lang/String;", "D", "J"], "Ljava/lang/Object;"⟩ := by rfl
  obtain ⟨hspells, _, hslots⟩ := (parse_exact _).2 _ hparsed
  exact ⟨hparsed, (hspells _).mpr rfl, hslots.trans (by decide)⟩

end MethodDescriptor

end DirectCall
