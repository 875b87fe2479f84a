import StackMachine.Image.Builder
import StackMachine.Proofs.Image.Bounds
import StackMachine.Proofs.Image.ConstantPool

/-!
# Why an image is rejected

Loading goes through the stages of an image and stops at the first one that something is wrong with.
The error names the stage, and the place in it: it says which bytes were read before, and what the
next ones are not.

* `ConstantPool.BadEntry`, `ConstantPool.Malformed`: what may be wrong with a constant and with a
  pool;
* `ConstantPool.decode_eq_error_iff`: a pool is rejected for just these reasons;
* `ConstantPool.first_of_index?`, `ConstantPool.entries_of_trailingBytes`: the place in it;
* `Program.Rejected`: what may be wrong with an image, stage by stage;
* `Program.load_eq_error_iff`: an image is rejected for just these reasons;
* `Program.Rejected.place`: the place in the code;
* `Program.load_classifies`: so it is either rejected, for one reason, or loaded.
-/

namespace StackMachine

open Bytes

/-! ## Constant pools -/

namespace Tag

/-- The number of bytes of the payload of a value. -/
def payloadSize : Tag → Nat
  | none => 0
  | int => 8
  | float => 8
  | bool => 1
  | error => 8

end Tag

/-- The entry that an error is about. -/
def ConstantPoolError.index? : ConstantPoolError → Option Nat
  | truncated index => some index
  | unknownTag index _ => some index
  | invalidBool index _ => some index
  | _ => none

namespace ConstantPool

/-- `BadEntry index bs reason`: entry `index`, which is read from the bytes `bs`, is no constant. -/
inductive BadEntry (index : Nat) : List UInt8 → ConstantPoolError → Prop
  | empty : BadEntry index [] (.truncated index)
  | truncated {kind : Tag} {bs : List UInt8} : bs.length < kind.payloadSize →
      BadEntry index (kind.number :: bs) (.truncated index)
  | unknownTag {tag : UInt8} {bs : List UInt8} : (∀ kind : Tag, kind.number ≠ tag) →
      BadEntry index (tag :: bs) (.unknownTag index tag)
  | invalidBool {byte : UInt8} {bs : List UInt8} : byte ≠ 0 → byte ≠ 1 →
      BadEntry index (Tag.bool.number :: byte :: bs) (.invalidBool index byte)

/-- `Malformed bs reason`: the bytes `bs` are no constant pool. They are too short for the number of
    constants; or there are fewer constants than that, and the bytes after them are no constant; or
    there are more bytes after the last constant. -/
inductive Malformed : List UInt8 → ConstantPoolError → Prop
  | missingCount {bs : List UInt8} : bs ≠ [] → bs.length < 4 → Malformed bs .missingCount
  | entry {count : Nat} {values : List Value} {rest : List UInt8} {reason : ConstantPoolError} :
      count < 2 ^ 32 → values.length < count → BadEntry values.length rest reason →
      Malformed (word 4 count ++ values.flatMap encodeEntry ++ rest) reason
  | trailing {values : List Value} {rest : List UInt8} : values.length < 2 ^ 32 → rest ≠ [] →
      Malformed (encode values ++ rest) (.trailingBytes rest.length)

variable {bs : List UInt8} {reason : ConstantPoolError} {index : Nat}

theorem BadEntry.index?_eq (h : BadEntry index bs reason) : reason.index? = some index := by
  cases h <;> rfl

/-- An entry is rejected for just these reasons. -/
theorem decodeEntry_eq_error_iff :
    decodeEntry index bs = .error reason ↔ BadEntry index bs reason := by
  constructor
  · intro h
    cases bs with
    | nil =>
      cases h
      exact .empty
    | cons tag bs =>
      cases htag : Tag.ofNumber? tag with
      | none =>
        simp only [decodeEntry, htag] at h
        cases h
        exact .unknownTag (Tag.ofNumber?_eq_none_iff.1 htag)
      | some kind =>
        obtain rfl := Tag.number_of_ofNumber? htag
        simp only [decodeEntry, htag] at h
        cases kind with
        | none => cases h
        | int | float | error =>
          simp only at h
          split at h <;> cases h
          rename_i hnone
          exact .truncated (takeWord?_eq_none_iff.1 hnone)
        | bool =>
          simp only at h
          split at h
          · cases h
            exact .truncated (Nat.zero_lt_one)
          split at h
          · cases h
          split at h <;> cases h
          rename_i hzero hone
          exact .invalidBool hzero hone
  · intro h
    cases h with
    | empty => rfl
    | unknownTag hunknown => simp only [decodeEntry, Tag.ofNumber?_eq_none_iff.2 hunknown]
    | invalidBool hzero hone =>
      simp only [decodeEntry, Tag.ofNumber?_number, if_neg hzero, if_neg hone]
    | @truncated kind bs hlen =>
      cases kind with
      | none => exact absurd hlen (Nat.not_lt_zero _)
      | int | float | error =>
        have hnone : takeWord? 8 bs = none := takeWord?_eq_none_iff.2 hlen
        simp only [decodeEntry, Tag.ofNumber?_number, hnone]
      | bool =>
        cases List.eq_nil_of_length_eq_zero (Nat.lt_one_iff.1 hlen)
        rfl

/-- Of entries that follow each other, the first one that is no constant is named. -/
theorem decodeEntries_eq_error_iff {count : Nat} :
    decodeEntries count index bs = .error reason ↔
      ∃ (values : List Value) (rest : List UInt8), values.length < count ∧
        bs = values.flatMap encodeEntry ++ rest ∧
        BadEntry (index + values.length) rest reason := by
  constructor
  · intro h
    induction count generalizing index bs with
    | zero => cases h
    | succ count ih =>
      rw [decodeEntries] at h
      split at h
      · rename_i err hentry
        cases h
        exact ⟨[], bs, Nat.zero_lt_succ _, rfl, decodeEntry_eq_error_iff.1 hentry⟩
      rename_i v bs' hentry
      split at h <;> cases h
      rename_i hentries
      obtain ⟨values, rest, hlen, rfl, hbad⟩ := ih hentries
      refine ⟨v :: values, rest, Nat.succ_lt_succ hlen, ?_, ?_⟩
      · rw [decodeEntry_eq_ok_iff.1 hentry, List.flatMap_cons, List.append_assoc]
      · rwa [List.length_cons, Nat.add_comm values.length, ← Nat.add_assoc]
  · rintro ⟨values, rest, hlen, rfl, hbad⟩
    induction values generalizing index count with
    | nil =>
      obtain ⟨count, rfl⟩ := Nat.exists_eq_add_one_of_ne_zero (Nat.ne_of_gt hlen)
      have hentry : decodeEntry index rest = .error reason := decodeEntry_eq_error_iff.2 hbad
      rw [List.flatMap_nil, List.nil_append, decodeEntries, hentry]
    | cons v values ih =>
      obtain ⟨count, rfl⟩ := Nat.exists_eq_add_one_of_ne_zero (Nat.ne_zero_of_lt hlen)
      rw [List.length_cons, Nat.add_comm values.length, ← Nat.add_assoc] at hbad
      rw [List.flatMap_cons, List.append_assoc, decodeEntries, decodeEntry_encodeEntry_append]
      simp only [ih (Nat.lt_of_succ_lt_succ hlen) hbad]

/-- The number of constants is read from the front. -/
theorem takeWord?_count {count : Nat} (h : count < 2 ^ 32) (entries : List UInt8) :
    takeWord? 4 (word 4 count ++ entries) = some (count, entries) :=
  takeWord?_word_append_of_lt h entries

theorem isEmpty_count (count : Nat) (entries : List UInt8) :
    (word 4 count ++ entries).isEmpty = false :=
  rfl

/-- A pool is rejected for just these reasons. -/
theorem decode_eq_error_iff : decode bs = .error reason ↔ Malformed bs reason := by
  constructor
  · intro h
    rw [decode] at h
    split at h
    · cases h
    rename_i hne
    split at h
    · rename_i hnone
      cases h
      exact .missingCount (by simpa using hne) (takeWord?_eq_none_iff.1 hnone)
    rename_i count rest hcount
    obtain ⟨hlt, rfl⟩ := takeWord?_eq_some_iff.1 hcount
    split at h
    · rename_i err hentries
      cases h
      obtain ⟨values, rest, hlen, rfl, hbad⟩ := decodeEntries_eq_error_iff.1 hentries
      rw [Nat.zero_add] at hbad
      rw [← List.append_assoc]
      exact .entry hlt hlen hbad
    · cases h
    · rename_i values rest hrest hentries
      cases h
      obtain ⟨rfl, rfl⟩ := decodeEntries_eq_ok_iff.1 hentries
      rw [← List.append_assoc]
      exact .trailing hlt hrest
  · intro h
    cases h with
    | missingCount hne hlen =>
      have hempty : bs.isEmpty = false := by simpa using hne
      have hnone : takeWord? 4 bs = none := takeWord?_eq_none_iff.2 hlen
      simp only [decode, hempty, hnone, Bool.false_eq_true, if_false]
    | @entry count values rest _ hcount hlen hbad =>
      rw [List.append_assoc]
      have hentries : decodeEntries count 0 (values.flatMap encodeEntry ++ rest) = .error reason :=
        decodeEntries_eq_error_iff.2 ⟨values, rest, hlen, rfl, by rwa [Nat.zero_add]⟩
      simp only [decode, isEmpty_count, takeWord?_count hcount, hentries, Bool.false_eq_true,
        if_false]
    | @trailing values rest hlen hne =>
      obtain ⟨b, rest, rfl⟩ := List.exists_cons_of_ne_nil hne
      rw [encode, List.append_assoc]
      have hentries := decodeEntries_flatMap_append 0 values (b :: rest)
      simp only [decode, isEmpty_count, takeWord?_count hlen, hentries, Bool.false_eq_true,
        if_false]

/-- An entry that is named is the first one that is not read. -/
theorem first_of_index? (h : decode bs = .error reason) (hindex : reason.index? = some index) :
    ∃ (count : Nat) (entries : List UInt8) (values : List Value) (rest : List UInt8),
      takeWord? 4 bs = some (count, entries) ∧ index < count ∧
      decodeEntries index 0 entries = .ok (values, rest) ∧
      decodeEntry index rest = .error reason := by
  cases decode_eq_error_iff.1 h with
  | missingCount => cases hindex
  | trailing => cases hindex
  | @entry count values rest _ hcount hlen hbad =>
    rw [hbad.index?_eq] at hindex
    cases hindex
    refine ⟨count, values.flatMap encodeEntry ++ rest, values, rest, ?_, hlen, ?_, ?_⟩
    · rw [List.append_assoc]
      exact takeWord?_count hcount _
    · exact decodeEntries_flatMap_append 0 values rest
    · exact decodeEntry_eq_error_iff.2 hbad

/-- Bytes are left over only if all entries are read. -/
theorem entries_of_trailingBytes {n : Nat} (h : decode bs = .error (.trailingBytes n)) :
    ∃ (count : Nat) (entries : List UInt8) (values : List Value) (rest : List UInt8),
      takeWord? 4 bs = some (count, entries) ∧
      decodeEntries count 0 entries = .ok (values, rest) ∧ rest.length = n ∧ 0 < n := by
  cases decode_eq_error_iff.1 h with
  | entry _ _ hbad => cases hbad
  | @trailing values rest hlen hne =>
    refine ⟨values.length, values.flatMap encodeEntry ++ rest, values, rest, ?_, ?_, rfl, ?_⟩
    · rw [encode, List.append_assoc]
      exact takeWord?_count hlen _
    · exact decodeEntries_flatMap_append 0 values rest
    · exact List.length_pos_of_ne_nil hne

end ConstantPool

/-! ## Images -/

namespace Program

/-- The image starts with a header that is accepted. -/
structure HasHeader (bytes : List UInt8) : Prop where
  length : 12 ≤ bytes.length
  magic : bytes.take 4 = imageMagic
  version : wordAt bytes 4 ≤ 1

/-- The header is followed by a section table that is accepted. -/
structure HasSections (bytes : List UInt8) (table : SectionTable) : Prop
    extends HasHeader bytes where
  sections : SectionTable.parse bytes (.ofImage bytes) = .ok table

/-- `Rejected bytes err`: the bytes are no image, and `err` says where they first are none. -/
inductive Rejected (bytes : List UInt8) : LoadError → Prop
  | tooShort : bytes.length < 12 → Rejected bytes (.tooShort bytes.length)
  | badMagic : 12 ≤ bytes.length → bytes.take 4 ≠ imageMagic →
      Rejected bytes (.badMagic (bytes.take 4))
  | unsupportedVersion : 12 ≤ bytes.length → bytes.take 4 = imageMagic → 1 < wordAt bytes 4 →
      Rejected bytes (.unsupportedVersion (wordAt bytes 4))
  | sectionTable {reason : SectionError} : HasHeader bytes →
      SectionTable.parse bytes (.ofImage bytes) = .error reason →
      Rejected bytes (.malformedSectionTable reason)
  | constantPool {table : SectionTable} {s : Section} {reason : ConstantPoolError} :
      HasSections bytes table → table.find? .constants = some s →
      ConstantPool.Malformed (s.body bytes) reason →
      Rejected bytes (.malformedConstantPool reason)
  /-- The code starts with some instructions, but the bytes after them are none. -/
  | code {table : SectionTable} {s : Section} {code : List Instruction} {rest : List UInt8}
      {reason : CodeError} :
      HasSections bytes table →
      (∀ s reason, table.find? .constants = some s →
        ¬ConstantPool.Malformed (s.body bytes) reason) →
      table.find? .code = some s → s.body bytes = code.flatMap Instruction.encode ++ rest →
      rest ≠ [] → Instruction.decode rest = .error reason →
      Rejected bytes (.malformedCode (codeSize code) reason)

variable {bytes : List UInt8} {table : SectionTable} {err : LoadError}

/-- Constants are rejected only if there is a section of them. -/
theorem loadConstants_eq_error_iff :
    loadConstants bytes table = .error err ↔
      ∃ s reason, table.find? .constants = some s ∧
        ConstantPool.Malformed (s.body bytes) reason ∧ err = .malformedConstantPool reason := by
  rw [loadConstants]
  constructor
  · intro h
    split at h
    · cases h
    rename_i s hs
    split at h <;> cases h
    rename_i reason hpool
    exact ⟨s, reason, hs, ConstantPool.decode_eq_error_iff.1 hpool, rfl⟩
  · rintro ⟨s, reason, hs, hpool, rfl⟩
    simp only [hs, ConstantPool.decode_eq_error_iff.2 hpool]

theorem loadCode_eq_error_iff (h : HasSections bytes table) :
    loadCode bytes table = .error err ↔
      ∃ s code rest reason, table.find? .code = some s ∧
        s.body bytes = code.flatMap Instruction.encode ++ rest ∧ rest ≠ [] ∧
        Instruction.decode rest = .error reason ∧
        err = .malformedCode (codeSize code) reason := by
  obtain ⟨s, hs, -⟩ := SectionTable.exists_code_of_parse h.sections
  simp only [loadCode, hs, decodeCode_eq_error_iff, Nat.zero_add, Option.some.injEq,
    exists_and_left, exists_eq_left']

theorem load_of_magic_ne (hlen : 12 ≤ bytes.length) (hmagic : bytes.take 4 ≠ imageMagic) :
    load bytes = .error (.badMagic (bytes.take 4)) := by
  have hwrong : (Header.ofImage bytes).hasMagic = false := beq_eq_false_iff_ne.2 hmagic
  simp only [load, Header.decode?_eq_ofImage hlen, hwrong]
  rfl

theorem load_of_version_gt (hlen : 12 ≤ bytes.length) (hmagic : bytes.take 4 = imageMagic)
    (hversion : 1 < wordAt bytes 4) :
    load bytes = .error (.unsupportedVersion (wordAt bytes 4)) := by
  have hright : (Header.ofImage bytes).hasMagic = true := beq_iff_eq.2 hmagic
  have hnew : (Header.ofImage bytes).isSupported = false :=
    decide_eq_false (UInt32.not_le.2 hversion)
  simp only [load, Header.decode?_eq_ofImage hlen, hright, hnew]
  rfl

theorem HasHeader.load_eq (h : HasHeader bytes) :
    load bytes = loadSections bytes (.ofImage bytes) := by
  have hmagic : (Header.ofImage bytes).hasMagic = true := beq_iff_eq.2 h.magic
  have hversion : (Header.ofImage bytes).isSupported = true := decide_eq_true h.version
  simp only [load, Header.decode?_eq_ofImage h.length, hmagic, hversion]
  rfl

/-- Behind an accepted table the constants are read, and only then the code. -/
theorem HasSections.load_eq_error_iff (h : HasSections bytes table) :
    load bytes = .error err ↔
      loadConstants bytes table = .error err ∨
        (∀ e, loadConstants bytes table ≠ .error e) ∧ loadCode bytes table = .error err := by
  rw [h.toHasHeader.load_eq, loadSections, h.sections]
  cases hconstants : loadConstants bytes table with
  | error e => simp [hconstants]
  | ok constants => cases hcode : loadCode bytes table <;> simp [hconstants, hcode]

/-- An image is rejected for just these reasons. -/
theorem load_eq_error_iff : load bytes = .error err ↔ Rejected bytes err := by
  constructor
  · intro h
    by_cases hlen : bytes.length < 12
    · rw [load, Header.decode?_eq_none hlen] at h
      cases h
      exact .tooShort hlen
    have hlen := Nat.le_of_not_lt hlen
    by_cases hmagic : bytes.take 4 ≠ imageMagic
    · rw [load_of_magic_ne hlen hmagic] at h
      cases h
      exact .badMagic hlen hmagic
    have hmagic := not_not.1 hmagic
    by_cases hversion : 1 < wordAt bytes 4
    · rw [load_of_version_gt hlen hmagic hversion] at h
      cases h
      exact .unsupportedVersion hlen hmagic hversion
    have hversion := UInt32.not_lt.1 hversion
    have hheader : HasHeader bytes := ⟨hlen, hmagic, hversion⟩
    cases hparse : SectionTable.parse bytes (.ofImage bytes) with
    | error reason =>
      rw [hheader.load_eq, loadSections, hparse] at h
      cases h
      exact .sectionTable hheader hparse
    | ok table =>
      have hsections : HasSections bytes table := ⟨hheader, hparse⟩
      rcases hsections.load_eq_error_iff.1 h with hconstants | ⟨hconstants, hcode⟩
      · obtain ⟨s, reason, hs, hpool, rfl⟩ := loadConstants_eq_error_iff.1 hconstants
        exact .constantPool hsections hs hpool
      · obtain ⟨s, code, rest, reason, hs, hbody, hne, hreason, rfl⟩ :=
          (loadCode_eq_error_iff hsections).1 hcode
        refine .code hsections (fun t e ht hpool => ?_) hs hbody hne hreason
        exact hconstants _ (loadConstants_eq_error_iff.2 ⟨t, e, ht, hpool, rfl⟩)
  · intro h
    cases h with
    | tooShort hlen => rw [load, Header.decode?_eq_none hlen]
    | badMagic hlen hmagic => exact load_of_magic_ne hlen hmagic
    | unsupportedVersion hlen hmagic hversion => exact load_of_version_gt hlen hmagic hversion
    | sectionTable hheader hparse => rw [hheader.load_eq, loadSections, hparse]
    | constantPool hsections hs hpool =>
      refine hsections.load_eq_error_iff.2 (.inl ?_)
      exact loadConstants_eq_error_iff.2 ⟨_, _, hs, hpool, rfl⟩
    | code hsections hpool hs hbody hne hreason =>
      refine hsections.load_eq_error_iff.2 (.inr ⟨fun e he => ?_, ?_⟩)
      · obtain ⟨t, reason, ht, hbad, -⟩ := loadConstants_eq_error_iff.1 he
        exact hpool t reason ht hbad
      · exact (loadCode_eq_error_iff hsections).2 ⟨_, _, _, _, hs, hbody, hne, hreason, rfl⟩

theorem Rejected.unique {err' : LoadError} (h : Rejected bytes err) (h' : Rejected bytes err') :
    err = err' := by
  have heq := (load_eq_error_iff.2 h).symm.trans (load_eq_error_iff.2 h')
  exact Except.error.inj heq

theorem exists_load_eq_ok_iff : (∃ p, load bytes = .ok p) ↔ ∀ err, ¬Rejected bytes err := by
  constructor
  · rintro ⟨p, hp⟩ err hrejected
    rw [load_eq_error_iff.2 hrejected] at hp
    cases hp
  · intro h
    cases hload : load bytes with
    | ok p => exact ⟨p, rfl⟩
    | error err => exact absurd (load_eq_error_iff.1 hload) (h err)

/-- The place in the code that is named is where the instructions before it end. -/
theorem Rejected.place {offset : Nat} {reason : CodeError}
    (h : Rejected bytes (.malformedCode offset reason)) :
    ∃ (table : SectionTable) (s : Section) (code : List Instruction) (rest : List UInt8),
      HasSections bytes table ∧ table.find? .code = some s ∧
      s.body bytes = code.flatMap Instruction.encode ++ rest ∧
      (code.flatMap Instruction.encode).length = offset ∧ rest ≠ [] ∧
      Instruction.decode rest = .error reason ∧ offset < 2 ^ 32 := by
  cases h with
  | @code table s code rest _ hsections _ hs hbody hne hreason =>
    refine ⟨table, s, code, rest, hsections, hs, hbody, length_flatMap_encode code, hne, hreason,
      ?_⟩
    have hlen : (s.body bytes).length ≤ s.len.toNat := List.length_take_le _ _
    rw [hbody, List.length_append, length_flatMap_encode] at hlen
    have := s.len.toNat_lt
    omega

/-- Bytes are either loaded or rejected for one reason, that of the first stage that fails. Where
    this is the constant pool or the code, the error names the place in it. No range of bytes is
    taken that is not there. -/
theorem load_classifies :
    (∀ bytes err, load bytes = .error err ↔ Rejected bytes err) ∧
    (∀ bytes, (∃ p, load bytes = .ok p) ↔ ∀ err, ¬Rejected bytes err) ∧
    (∀ bytes err err', Rejected bytes err → Rejected bytes err' → err = err') ∧
    (∀ pool reason,
      ConstantPool.decode pool = .error reason ↔ ConstantPool.Malformed pool reason) ∧
    (∀ pool reason index, ConstantPool.decode pool = .error reason →
      reason.index? = some index →
      ∃ count entries values rest, takeWord? 4 pool = some (count, entries) ∧ index < count ∧
        ConstantPool.decodeEntries index 0 entries = .ok (values, rest) ∧
        ConstantPool.decodeEntry index rest = .error reason) ∧
    (∀ pool n, ConstantPool.decode pool = .error (.trailingBytes n) →
      ∃ count entries values rest, takeWord? 4 pool = some (count, entries) ∧
        ConstantPool.decodeEntries count 0 entries = .ok (values, rest) ∧
        rest.length = n ∧ 0 < n) ∧
    (∀ bytes offset reason, Rejected bytes (.malformedCode offset reason) →
      ∃ (table : SectionTable) (s : Section) (code : List Instruction) (rest : List UInt8),
        HasSections bytes table ∧ table.find? .code = some s ∧
        s.body bytes = code.flatMap Instruction.encode ++ rest ∧
        (code.flatMap Instruction.encode).length = offset ∧ rest ≠ [] ∧
        Instruction.decode rest = .error reason ∧ offset < 2 ^ 32) ∧
    ∀ bytes, Guarded.load bytes = some (load bytes) :=
  ⟨fun _ _ => load_eq_error_iff, fun _ => exists_load_eq_ok_iff,
    fun _ _ _ h h' => h.unique h', fun _ _ => ConstantPool.decode_eq_error_iff,
    fun _ _ _ h hindex => ConstantPool.first_of_index? h hindex,
    fun _ _ h => ConstantPool.entries_of_trailingBytes h, fun _ _ _ h => h.place, guarded_load⟩

/-- An image of constants and code, whatever they are. -/
def poolAndCode (pool code : List UInt8) : List UInt8 :=
  encodeImage imageVersion [(.constants, pool), (.code, code)]

theorem load_classifies_places :
    (∀ err, Rejected (poolAndCode [2, 0, 0, 0, 0, 9] [0xFF]) err →
      err = .malformedConstantPool (.unknownTag 1 9)) ∧
    (∃ count entries values rest,
      takeWord? 4 [2, 0, 0, 0, 0, 9] = some (count, entries) ∧ 1 < count ∧
        ConstantPool.decodeEntries 1 0 entries = .ok (values, rest) ∧
        ConstantPool.decodeEntry 1 rest = .error (.unknownTag 1 9)) ∧
    (∃ count entries values rest,
      takeWord? 4 [1, 0, 0, 0, 0, 7, 7] = some (count, entries) ∧
        ConstantPool.decodeEntries count 0 entries = .ok (values, rest) ∧
        rest.length = 2 ∧ 0 < 2) ∧
    ∃ (table : SectionTable) (s : Section) (code : List Instruction) (rest : List UInt8),
      HasSections (poolAndCode [] [0x4F, 0x02, 1]) table ∧ table.find? .code = some s ∧
      s.body (poolAndCode [] [0x4F, 0x02, 1]) = code.flatMap Instruction.encode ++ rest ∧
      (code.flatMap Instruction.encode).length = 1 ∧ rest ≠ [] ∧
      Instruction.decode rest = .error (.truncated .pushFloat) ∧ 1 < 2 ^ 32 := by
  obtain ⟨hrejected, -, hunique, -, hindex, htrailing, hcode, -⟩ := load_classifies
  have hpool : load (poolAndCode [2, 0, 0, 0, 0, 9] [0xFF]) =
      .error (.malformedConstantPool (.unknownTag 1 9)) := by
    decide +kernel
  have hplace : load (poolAndCode [] [0x4F, 0x02, 1]) =
      .error (.malformedCode 1 (.truncated .pushFloat)) := by
    decide +kernel
  refine ⟨fun err herr => ?_, ?_, ?_, ?_⟩
  · exact hunique _ _ _ herr ((hrejected _ _).1 hpool)
  · exact hindex _ (.unknownTag 1 9) 1 rfl rfl
  · exact htrailing _ 2 rfl
  · exact hcode _ _ _ ((hrejected _ _).1 hplace)

end Program

end StackMachine
