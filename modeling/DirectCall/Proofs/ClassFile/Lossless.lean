import DirectCall.Proofs.Bytes.Taken
import DirectCall.Proofs.ClassFile.ReadBack
import DirectCall.Proofs.Text.Shortest

/-!
# Writing back what was read

Everything in a class file is written as it was read but for the texts of its pool, which are decoded and
encoded again. So a class file is written back byte for byte exactly if every text in it has its shortest
spelling (`ClassFile.toBytes_eq_iff`), and is shorter otherwise.
-/

namespace DirectCall

open Bytes Bytes.Reader Text

namespace ConstantPool

/-! ## Texts as they are spelt -/

/-- The bytes of the text that comes next, if the next entry is one. -/
def textAhead? : List UInt8 → Option (List UInt8)
  | 1 :: high :: low :: rest => some (rest.take (bigEndian 0 [high, low]))
  | _ => none

/-- The bytes of the texts among the next entries, up to slot `count`. -/
def textsAhead (count : Nat) : Nat → Nat → Reader (List (List UInt8))
  | 0, _ => return []
  | missing + 1, slot => do
    if slot < count then
      let text? := textAhead? (← getThe Cursor).rest
      let tag ← u8
      let entry ← readEntry slot tag
      return text?.toList ++ (← textsAhead count missing (slot + entry.slots.length))
    else return []

/-- The bytes of the texts of a pool. -/
def readTexts : Reader (List (List UInt8)) := do
  let count := (← u16).toNat
  textsAhead count count 1

/-- All texts are spelt the shortest way. -/
def AllShortest (texts : List (List UInt8)) : Prop := ∀ text ∈ texts, ModifiedUtf8.IsShortest text

/-! ## Entries -/

/-- The operands are written as they were taken, unless they hold a text that can be spelt shorter. -/
def Rewrites (tag : UInt8) (taken : List UInt8) (e : Entry) : Prop :=
  ∃ operands, e ≠ .unusable ∧ e.tag = tag ∧ e.operands = .ok operands ∧
    ∀ rest, Shortens operands taken (AllShortest (textAhead? (tag :: taken ++ rest)).toList)

/-- An entry without a text is written as it was taken. -/
theorem rewrites_exact {tag : UInt8} {taken : List UInt8} {e : Entry} (husable : e ≠ .unusable)
    (htag : e.tag = tag) (hother : tag ≠ 1) (h : e.operands = .ok taken) : Rewrites tag taken e := by
  refine ⟨taken, husable, htag, h, fun rest => (Shortens.refl taken).congr ?_⟩
  have hnone : textAhead? (tag :: taken ++ rest) = none := by
    unfold textAhead?
    split
    · rename_i heq
      exact absurd (List.cons.inj heq).1 hother
    · rfl
  rw [hnone]
  simp [AllShortest]

theorem textAhead?_utf8 {length : UInt16} {spelling : List UInt8} (h : spelling.length = length.toNat)
    (rest : List UInt8) :
    textAhead? (1 :: (ofUInt16 length ++ spelling) ++ rest) = some spelling := by
  have hcount : bigEndian 0 [(length >>> 8).toUInt8, length.toUInt8] = spelling.length := by
    rw [h]
    exact bigEndian_ofUInt16 length
  rw [ofUInt16]
  show some ((spelling ++ rest).take (bigEndian 0 [_, _])) = some spelling
  rw [hcount, List.take_left]

theorem takes_readUtf8 (index : Nat) : (readUtf8 index).Takes (Rewrites 1) := by
  refine takes_u16.bind fun taken length hlength => ?_
  refine (takes_bytes length.toNat).bind fun taken' spelling hspelling => ?_
  obtain ⟨hcount, heq⟩ := hspelling
  subst heq
  split
  · rename_i text hdecoded
    have hshort := ModifiedUtf8.encode_decode hdecoded
    have hsmall := length.toNat_lt
    have hwritten := hshort.1
    refine takes_pure ⟨ofUInt16 (ModifiedUtf8.encode text).length.toUInt16 ++ ModifiedUtf8.encode text,
      nofun, rfl, ?_, fun rest => ?_⟩
    · rw [Entry.operands, if_neg (by omega)]
    · subst hlength
      rw [List.append_nil, textAhead?_utf8 hcount]
      refine ⟨?_, ?_⟩
      · simp only [List.length_append, ofUInt16, List.length_cons, List.length_nil]
        omega
      · have hcond : AllShortest (some spelling).toList ↔ ModifiedUtf8.encode text = spelling := by
          rw [hshort.2]
          simp [AllShortest]
        rw [hcond]
        constructor
        · intro heq
          exact (List.append_inj heq rfl).2
        · intro heq
          rw [heq, hcount, Nat.toUInt16_eq, UInt16.ofNat_toNat]
  · exact takes_throw _

/-- An entry whose single operand is a number. -/
theorem takes_single {α : Type} {tag : UInt8} {read : Reader α} {write : α → List UInt8}
    {make : α → Entry} (h : read.Takes fun taken a => taken = write a) (hother : tag ≠ 1)
    (hmake : ∀ a, make a ≠ .unusable ∧ (make a).tag = tag ∧ (make a).operands = .ok (write a)) :
    (make <$> read).Takes (Rewrites tag) := by
  refine h.map fun taken a htaken => ?_
  obtain ⟨husable, htag, hoperands⟩ := hmake a
  exact rewrites_exact husable htag hother (by rw [hoperands, htaken])

/-- An entry whose operands are two indices. -/
theorem takes_pair {tag : UInt8} {make : UInt16 → UInt16 → Entry} (hother : tag ≠ 1)
    (hmake : ∀ a b, make a b ≠ .unusable ∧ (make a b).tag = tag ∧
      (make a b).operands = .ok (ofUInt16 a ++ ofUInt16 b)) : (pair make).Takes (Rewrites tag) := by
  refine takes_u16.bind fun taken a ha => takes_u16.bind_pure fun taken' b hb => ?_
  obtain ⟨husable, htag, hoperands⟩ := hmake a b
  exact rewrites_exact husable htag hother (by rw [hoperands, ha, hb])

theorem takes_readEntry (index : Nat) (tag : UInt8) : (readEntry index tag).Takes (Rewrites tag) := by
  have htag : ∀ {n : UInt8}, tag.toNat = n.toNat → tag = n := fun h => UInt8.toNat_inj.mp h
  unfold readEntry
  split
  case h_1 h => cases htag (n := 1) h; exact takes_readUtf8 index
  case h_2 h =>
    cases htag (n := 3) h
    exact takes_single takes_i32 (by decide) fun _ => ⟨nofun, rfl, rfl⟩
  case h_3 h =>
    cases htag (n := 4) h
    exact takes_single takes_u32 (by decide) fun _ => ⟨nofun, rfl, rfl⟩
  case h_4 h =>
    cases htag (n := 5) h
    refine takes_u64.bind_pure fun taken n hn => ?_
    refine rewrites_exact nofun rfl (by decide) ?_
    rw [hn, Entry.operands, ofInt64, UInt64.toUInt64_toInt64]
  case h_5 h =>
    cases htag (n := 6) h
    exact takes_single takes_u64 (by decide) fun _ => ⟨nofun, rfl, rfl⟩
  case h_6 h =>
    cases htag (n := 7) h
    exact takes_single takes_u16 (by decide) fun _ => ⟨nofun, rfl, rfl⟩
  case h_7 h =>
    cases htag (n := 8) h
    exact takes_single takes_u16 (by decide) fun _ => ⟨nofun, rfl, rfl⟩
  case h_8 h => cases htag (n := 9) h; exact takes_pair (by decide) fun _ _ => ⟨nofun, rfl, rfl⟩
  case h_9 h => cases htag (n := 10) h; exact takes_pair (by decide) fun _ _ => ⟨nofun, rfl, rfl⟩
  case h_10 h => cases htag (n := 11) h; exact takes_pair (by decide) fun _ _ => ⟨nofun, rfl, rfl⟩
  case h_11 h => cases htag (n := 12) h; exact takes_pair (by decide) fun _ _ => ⟨nofun, rfl, rfl⟩
  case h_12 h =>
    cases htag (n := 15) h
    refine takes_u8.bind fun taken kind hkind => takes_u16.bind_pure fun taken' reference href => ?_
    refine rewrites_exact nofun rfl (by decide) ?_
    rw [hkind, href]
    rfl
  case h_13 h =>
    cases htag (n := 16) h
    exact takes_single takes_u16 (by decide) fun _ => ⟨nofun, rfl, rfl⟩
  case h_14 h => cases htag (n := 17) h; exact takes_pair (by decide) fun _ _ => ⟨nofun, rfl, rfl⟩
  case h_15 h => cases htag (n := 18) h; exact takes_pair (by decide) fun _ _ => ⟨nofun, rfl, rfl⟩
  case h_16 h =>
    cases htag (n := 19) h
    exact takes_single takes_u16 (by decide) fun _ => ⟨nofun, rfl, rfl⟩
  case h_17 h =>
    cases htag (n := 20) h
    exact takes_single takes_u16 (by decide) fun _ => ⟨nofun, rfl, rfl⟩
  case h_18 => exact takes_throw _

/-! ## Pools -/

/-- The second slots of wide entries are written as nothing. -/
theorem write_flatMap_slots {es : List Entry} {parts : List (List UInt8)}
    (h : List.Forall₂ (fun e part => e.write = .ok part) es parts) :
    ∃ parts', List.Forall₂ (fun e part => e.write = .ok part) (es.flatMap Entry.slots) parts' ∧
      parts'.flatten = parts.flatten := by
  induction h with
  | nil => exact ⟨[], .nil, rfl⟩
  | @cons e part es parts hpart _ ih =>
    obtain ⟨parts', hparts', hflatten⟩ := ih
    rw [List.flatMap_cons, Entry.slots]
    split_ifs
    · exact ⟨part :: [] :: parts', .cons hpart (.cons rfl hparts'), by simp [hflatten]⟩
    · exact ⟨part :: parts', .cons hpart hparts', by simp [hflatten]⟩

/-- What was read of the entries, from which slot on and with which texts. -/
theorem readEntries_rewrites {count missing : Nat} {entries entries' : Array Entry} {c c' : Cursor}
    (h : readEntries count missing entries c = .ok (entries', c')) :
    ∃ texts taken es parts, textsAhead count missing entries.size c = .ok (texts, c') ∧
      c.rest = taken ++ c'.rest ∧ entries' = entries ++ (es.flatMap Entry.slots).toArray ∧
      List.Forall₂ (fun e part => e.write = .ok part) es parts ∧
      Shortens parts.flatten taken (AllShortest texts) := by
  induction missing generalizing entries c with
  | zero =>
    cases h
    exact ⟨[], [], [], [], rfl, rfl, by simp, .nil, (Shortens.refl []).congr (by simp [AllShortest])⟩
  | succ missing ih =>
    rw [readEntries] at h
    rw [textsAhead]
    split_ifs at h ⊢ with hroom
    · obtain ⟨tag, middle, htag, h⟩ := bind_apply_eq_ok.mp h
      obtain ⟨entry, last, hentry, h⟩ := bind_apply_eq_ok.mp h
      obtain ⟨texts, taken, es, parts, htexts, hrest, rfl, hparts, hshort⟩ := ih h
      obtain ⟨tagged, htagged, _, rfl⟩ := takes_u8 c tag middle htag
      obtain ⟨operands, hoperands, _, written, husable, rfl, hwritten, hshorter⟩ :=
        takes_readEntry _ _ middle entry last hentry
      have hahead : c.rest = entry.tag :: operands ++ last.rest := by
        rw [htagged, hoperands]
        rfl
      have hpart : entry.write = .ok (entry.tag :: written) := by
        rw [Entry.write, if_neg husable, hwritten]
        rfl
      refine ⟨(textAhead? c.rest).toList ++ texts, entry.tag :: operands ++ taken, entry :: es,
        (entry.tag :: written) :: parts, ?_, ?_, ?_, .cons hpart hparts, ?_⟩
      · rw [Array.size_append, List.size_toArray] at htexts
        refine bind_apply_eq_ok.mpr ⟨c, c, rfl, bind_apply_eq_ok.mpr ⟨_, middle, htag, ?_⟩⟩
        refine bind_apply_eq_ok.mpr ⟨entry, last, hentry, ?_⟩
        exact bind_apply_eq_ok.mpr ⟨texts, c', htexts, rfl⟩
      · rw [hahead, hrest, List.append_assoc]
      · rw [List.flatMap_cons, Array.append_assoc]
        simp
      · have hfirst : Shortens (entry.tag :: written) (entry.tag :: operands)
            (AllShortest (textAhead? c.rest).toList) := by
          rw [hahead]
          obtain ⟨hlength, hsame⟩ := hshorter last.rest
          exact ⟨Nat.succ_le_succ hlength, by rw [List.cons.injEq, ← hsame]; simp⟩
        refine (hfirst.append hshort).congr ?_
        simp only [AllShortest, List.forall_mem_append]
    · cases h
      exact ⟨[], [], [], [], rfl, rfl, by simp, .nil, (Shortens.refl []).congr (by simp [AllShortest])⟩

/-- A pool that was read can be written, and is the same in bytes exactly if its texts are spelt the
shortest way. -/
theorem read_rewrites {c c' : Cursor} {pool : ConstantPool} (h : read c = .ok (pool, c')) :
    ∃ texts taken written, readTexts c = .ok (texts, c') ∧ c.rest = taken ++ c'.rest ∧
      pool.write = .ok written ∧ Shortens written taken (AllShortest texts) := by
  have hlaid := read_laidOut h
  obtain ⟨count, middle, hcount, h⟩ := bind_apply_eq_ok.mp h
  obtain ⟨entries, last, hentries, h⟩ := bind_apply_eq_ok.mp h
  split_ifs at h with hsize
  · cases h
    obtain ⟨texts, taken, es, parts, htexts, hrest, hes, hparts, hshort⟩ := readEntries_rewrites hentries
    obtain ⟨taken', hrest', _, rfl⟩ := takes_u16 c count middle hcount
    obtain ⟨parts', hparts', hflatten⟩ := write_flatMap_slots hparts
    have hall : List.Forall₂ (fun e part => Entry.write e = .ok part) entries.toList ([] :: parts') := by
      rw [hes]
      simpa using ⟨rfl, hparts'⟩
    refine ⟨texts, ofUInt16 count ++ taken, ofUInt16 count ++ parts.flatten,
      bind_apply_eq_ok.mpr ⟨count, middle, hcount, htexts⟩, ?_, ?_, ?_⟩
    · rw [hrest', hrest, List.append_assoc]
    · have hsmall := hlaid.small
      rw [write, if_neg (by omega), concat_map_of_forall₂ hall, List.flatten_cons, hflatten]
      show Except.ok (ofUInt16 entries.size.toUInt16 ++ _) = _
      rw [hsize, Nat.toUInt16_eq, UInt16.ofNat_toNat]
      rfl
    · exact ((Shortens.refl _).append hshort).congr (by rw [true_and])
  · cases h

end ConstantPool

/-! ## Class files -/

theorem Attribute.takes_read : Attribute.read.Takes fun taken a => a.write = .ok taken := by
  refine takes_u16.bind fun taken name hname => takes_number_four.bind fun taken' length hlength => ?_
  refine (takes_bytes length).bind_pure fun info info' hinfo => ?_
  obtain ⟨hcount, heq⟩ := hinfo
  subst heq
  rw [Attribute.write]
  dsimp only
  rw [hcount, if_pos hlength.1, hname, hlength.2, List.append_assoc]

theorem Member.takes_read : Member.read.Takes fun taken m => m.write = .ok taken := by
  refine takes_u16.bind fun taken access haccess => takes_u16.bind fun taken' name hname => ?_
  refine takes_u16.bind fun taken'' descriptor hdescriptor => ?_
  refine (takes_table Attribute.takes_read).bind_pure fun attributes items hitems => ?_
  rw [Member.write]
  dsimp only
  rw [hitems, haccess, hname, hdescriptor]
  simp only [List.append_assoc]
  rfl

namespace ClassFile

/-- Spellings of the texts in the pool of a class file, which starts behind its magic and version. -/
def textSpellings (data : List UInt8) : List (List UInt8) :=
  match ConstantPool.readTexts ⟨8, data.drop 8⟩ with
  | .ok (texts, _) => texts
  | .error _ => []

/-- What follows the pool is written as it was read. -/
theorem takes_behindPool (minor major : UInt16) (pool : ConstantPool) :
    Takes (do
      let access ← u16
      let thisClass ← u16
      let superClass ← u16
      let interfaces ← Reader.table u16
      let fields ← reading .readingFields (Reader.table Member.read)
      let methods ← reading .readingMethods (Reader.table Member.read)
      let attributes ← reading .readingClassAttributes (Reader.table Attribute.read)
      return (⟨minor, major, pool, access, thisClass, superClass, interfaces, fields, methods,
        attributes⟩ : ClassFile))
      fun taken c => ∀ written, pool.write = .ok written → c.toBytes =
        .ok (ofUInt32 magic ++ ofUInt16 minor ++ ofUInt16 major ++ written ++ taken) := by
  have hindices : (Reader.table u16).Takes fun taken items =>
      Bytes.table items (fun i => .ok (ofUInt16 i)) = .ok taken :=
    takes_table (takes_u16.imp fun taken i h => by rw [h])
  refine takes_u16.bind fun taken access haccess => takes_u16.bind fun taken' thisClass hthis => ?_
  refine takes_u16.bind fun taken'' superClass hsuper => ?_
  refine hindices.bind fun interfaceBytes interfaces hinterfaces => ?_
  refine ((takes_table Member.takes_read).reading _).bind fun fieldBytes fields hfields => ?_
  refine ((takes_table Member.takes_read).reading _).bind fun methodBytes methods hmethods => ?_
  refine ((takes_table Attribute.takes_read).reading _).bind_pure fun rest attributes hattributes => ?_
  intro written hwritten
  rw [toBytes]
  dsimp only
  rw [hwritten, hinterfaces, hfields, hmethods, hattributes, haccess, hthis, hsuper]
  simp only [List.append_assoc]
  rfl

/-- What is written of a class file that was read. -/
theorem toBytes_shortens {data : List UInt8} {c : ClassFile} (h : parse data = .ok c) :
    ∃ written, c.toBytes = .ok written ∧
      Text.Shortens written data (ConstantPool.AllShortest (textSpellings data)) := by
  obtain ⟨⟨c', last⟩, hread, h⟩ := bind_eq_ok.mp h
  dsimp only at h
  split_ifs at h with hend
  · cases h
    obtain ⟨found, c₁, hfound, hread⟩ := bind_apply_eq_ok.mp hread
    dsimp only at hread
    split_ifs at hread with hmagic
    · cases hread
    · obtain ⟨minor, c₂, hminor, hread⟩ := bind_apply_eq_ok.mp hread
      obtain ⟨major, c₃, hmajor, hread⟩ := bind_apply_eq_ok.mp hread
      obtain ⟨pool, c₄, hpool, hread⟩ := bind_apply_eq_ok.mp hread
      obtain ⟨tail, htail, _, hclass⟩ := takes_behindPool minor major pool c₄ c last hread
      obtain ⟨texts, taken, written, htexts, hrest, hwritten, hshort⟩ :=
        ConstantPool.read_rewrites (during_eq_ok.mp hpool)
      obtain ⟨_, hrest₁, hoffset₁, rfl⟩ := takes_u32.reading _ _ found c₁ hfound
      obtain ⟨_, hrest₂, hoffset₂, rfl⟩ := takes_u16 c₁ minor c₂ hminor
      obtain ⟨_, hrest₃, hoffset₃, rfl⟩ := takes_u16 c₂ major c₃ hmajor
      have hhead : data = ofUInt32 magic ++ ofUInt16 minor ++ ofUInt16 major ++ c₃.rest := by
        rw [← not_not.mp hmagic, List.append_assoc, List.append_assoc, ← hrest₃, ← hrest₂]
        exact hrest₁
      have hbehind : c₃ = ⟨8, data.drop 8⟩ := by
        rw [hoffset₂, hoffset₁] at hoffset₃
        rw [hhead]
        exact congrArg (Cursor.mk · c₃.rest) hoffset₃
      have hspellings : textSpellings data = texts := by
        rw [textSpellings, ← hbehind, htexts]
      have hdata : data = ofUInt32 magic ++ ofUInt16 minor ++ ofUInt16 major ++ taken ++ tail := by
        rw [List.isEmpty_iff.mp hend, List.append_nil] at htail
        rw [← htail, List.append_assoc, ← hrest]
        exact hhead
      refine ⟨_, hclass written hwritten, ?_⟩
      rw [hspellings, hdata]
      have hparts := ((Text.Shortens.refl (ofUInt32 magic ++ ofUInt16 minor ++ ofUInt16 major)).append
        hshort).append (Text.Shortens.refl tail)
      exact hparts.congr (by rw [true_and, and_true])

/-- A class file that was read can be written, and is the same class file when it is read again. It is
written byte for byte as it was exactly if every text in it has its shortest spelling. -/
theorem toBytes_eq_iff {data : List UInt8} {c : ClassFile} (h : parse data = .ok c) :
    (∃ written, c.toBytes = .ok written ∧ written.length ≤ data.length ∧ parse written = .ok c) ∧
      (c.toBytes = .ok data ↔ ∀ text ∈ textSpellings data, Text.ModifiedUtf8.IsShortest text) := by
  obtain ⟨written, hwritten, hshorter, hsame⟩ := toBytes_shortens h
  refine ⟨⟨written, hwritten, hshorter, parse_toBytes (pool_laidOut h) hwritten⟩, ?_⟩
  rw [hwritten, Except.ok.injEq]
  exact hsame

/-- A class named by `spelling`, with nothing in it. -/
def namedBy (spelling : List UInt8) : List UInt8 :=
  ofUInt32 magic ++ [0, 3, 0, 45, 0, 3, 7, 0, 2, 1] ++ ofUInt16 spelling.length.toUInt16 ++ spelling
    ++ [0, 0x21, 0, 1, 0, 0, 0, 0, 0, 0, 0, 0, 0, 0]

/-- The class that is named `name`. -/
def named (name : String) : ClassFile :=
  ⟨3, 45, ⟨#[.unusable, .classRef 2, .utf8 name]⟩, 0x21, 1, 0, [], [], [], []⟩

/-- Zero takes two bytes, and the unit `0x800` three. -/
theorem toBytes_eq_iff_named :
    parse (namedBy [0x41, 0xC0, 0x80, 0xE0, 0xA0, 0x80]) = .ok (named "A\x00\u0800") ∧
      (∃ written, (named "A\x00\u0800").toBytes = .ok written ∧
        written.length ≤ (namedBy [0x41, 0xC0, 0x80, 0xE0, 0xA0, 0x80]).length ∧
        parse written = .ok (named "A\x00\u0800")) ∧
      ((named "A\x00\u0800").toBytes = .ok (namedBy [0x41, 0xC0, 0x80, 0xE0, 0xA0, 0x80]) ↔
        ∀ text ∈ textSpellings (namedBy [0x41, 0xC0, 0x80, 0xE0, 0xA0, 0x80]),
          Text.ModifiedUtf8.IsShortest text) := by
  have hparse : parse (namedBy [0x41, 0xC0, 0x80, 0xE0, 0xA0, 0x80]) = .ok (named "A\x00\u0800") := by
    rfl
  exact ⟨hparse, toBytes_eq_iff hparse⟩

/-- The letter `A` is read from two bytes, and written as one. -/
theorem not_forall_toBytes_eq : ¬ ∀ data c, parse data = .ok c → c.toBytes = .ok data := by
  intro hall
  have hparse : parse (namedBy [0xC1, 0x81]) = .ok (named "A") := by rfl
  have hwritten : (named "A").toBytes = .ok (namedBy [0x41]) := by rfl
  have hlength := congrArg List.length (Except.ok.inj (hwritten.symm.trans (hall _ _ hparse)))
  exact absurd hlength (by decide)

end ClassFile

end DirectCall
