import StackMachine.Proofs.Image.Code
import StackMachine.Proofs.Image.SectionTable

/-!
# What is loaded

A program that is loaded is what the stages of loading make of its image (`Program.IsLoaded`). Its
instructions are the code section: their encodings, one after the other, are its bytes, and nothing
is left out, read twice or read beyond its end.

* `Program.load_eq_ok_iff`: which programs are loaded;
* `SectionTable.exists_code_of_parse`: the code section is there;
* `Program.load_tiles`: the instructions are its bytes, each at its offset.
-/

namespace StackMachine

open Bytes

namespace Header

/-- The header that the first bytes of an image are. -/
def ofImage (image : List UInt8) : Header :=
  ⟨image.take 4, wordAt image 4, wordAt image 8⟩

theorem decode?_eq_none {image : List UInt8} (h : image.length < headerSize) :
    decode? image = none := by
  rw [decode?, if_neg]
  rw [List.length_take]
  omega

theorem decode?_eq_ofImage {image : List UInt8} (h : headerSize ≤ image.length) :
    decode? image = some (ofImage image) := by
  rw [decode?, if_pos]
  · rfl
  · rw [List.length_take, Nat.min_eq_left h]

end Header

/-- The sections of an accepted table lie within the image, and there is one of each kind at
    most. -/
theorem SectionTable.placed_of_parse {image : List UInt8} {h : Header} {table : SectionTable}
    (hparse : parse image h = .ok table) :
    (∀ s ∈ table.entries, Placed image.length h.tableEnd s) ∧
      (table.entries.map (·.kind)).Nodup ∧ table.defect? = none := by
  obtain ⟨-, hraw, hwell⟩ := parse_eq_ok_iff.1 hparse
  rw [← hraw] at hwell
  obtain ⟨hplaced, hkinds, hdefect⟩ := wellFormed_map_raw_iff.1 hwell
  exact ⟨hplaced, nodup_map_kind_iff.2 hkinds, hdefect⟩

/-- There is a code section in an accepted table, it is not empty, and it lies within the image. -/
theorem SectionTable.exists_code_of_parse {image : List UInt8} {h : Header}
    {table : SectionTable} (hparse : parse image h = .ok table) :
    ∃ s, table.find? .code = some s ∧ s.len ≠ 0 ∧ s.stop ≤ image.length := by
  obtain ⟨hplaced, hkinds, hdefect⟩ := placed_of_parse hparse
  obtain ⟨-, ⟨s, hs, hkind, hlen⟩, -⟩ := (defect?_eq_none_iff hkinds).1 hdefect
  exact ⟨s, (find?_eq_some_iff hkinds).2 ⟨hs, hkind⟩, hlen, (hplaced s hs).1⟩

namespace Program

/-- The instructions in the order of the code. -/
def instructions (p : Program) : List Instruction :=
  p.code.toList.map (·.instruction)

/-- The offsets of the instructions. -/
def offsets (p : Program) : List Nat :=
  p.code.toList.map (·.offset)

/-- A program is what the stages of loading make of its image. -/
structure IsLoaded (p : Program) : Prop where
  header : Header.decode? p.bytes = some p.header
  magic : p.header.hasMagic = true
  version : p.header.isSupported = true
  sections : SectionTable.parse p.bytes p.header = .ok p.sections
  constants : loadConstants p.bytes p.sections = .ok p.constants.toList
  code : loadCode p.bytes p.sections = .ok p.code.toList
  lines : loadLines p.bytes p.sections = p.lines.toList

/-- The program that is loaded from an image, if there is one. -/
theorem load_eq_ok_iff {bytes : List UInt8} {p : Program} :
    load bytes = .ok p ↔ p.bytes = bytes ∧ p.IsLoaded := by
  constructor
  · intro h
    rw [load] at h
    split at h
    · cases h
    rename_i header hheader
    split at h
    · cases h
    rename_i hmagic
    split at h
    · cases h
    rename_i hversion
    rw [loadSections] at h
    split at h
    · cases h
    rename_i sections hsections
    split at h
    · cases h
    rename_i constants hconstants
    split at h <;> cases h
    rename_i code hcode
    exact ⟨rfl, hheader, by simpa using hmagic, by simpa using hversion, hsections, hconstants,
      hcode, rfl⟩
  · rintro ⟨rfl, h⟩
    simp only [load, h.header, h.magic, h.version, loadSections, h.sections, h.constants, h.code,
      h.lines]
    rfl

namespace IsLoaded

variable {p : Program}

theorem exists_code (h : p.IsLoaded) :
    ∃ s, p.sections.find? .code = some s ∧ s.len ≠ 0 ∧ s.stop ≤ p.bytes.length :=
  SectionTable.exists_code_of_parse h.sections

theorem length_codeBytes (h : p.IsLoaded) : p.codeBytes.length = p.codeLen := by
  obtain ⟨s, hfind, -, hstop⟩ := h.exists_code
  simp only [codeBytes, codeLen, hfind]
  exact length_slice hstop

theorem codeLen_bounds (h : p.IsLoaded) : 0 < p.codeLen ∧ p.codeLen < 2 ^ 32 := by
  obtain ⟨s, hfind, hlen, -⟩ := h.exists_code
  simp only [codeLen, hfind]
  refine ⟨Nat.pos_of_ne_zero fun hzero => hlen ?_, s.len.toNat_lt⟩
  exact UInt32.toNat_inj.1 hzero

/-- The code section holds the encodings of the instructions, and nothing else. -/
theorem code_eq (h : p.IsLoaded) :
    p.instructions.flatMap Instruction.encode = p.codeBytes ∧
      p.code.toList = placeCode 0 p.instructions := by
  obtain ⟨s, hfind, -, -⟩ := h.exists_code
  have hcode := h.code
  simp only [loadCode, hfind] at hcode
  obtain ⟨code, hbytes, hplaced⟩ := decodeCode_eq_ok_iff.1 hcode
  have hinstructions : p.instructions = code := by
    rw [instructions, hplaced, map_instruction_placeCode]
  rw [hinstructions]
  refine ⟨?_, hplaced⟩
  simp only [hbytes, codeBytes, hfind]

/-- An instruction is what the bytes at its offset are decoded as. -/
theorem decode_of_fetch? (h : p.IsLoaded) {k : Nat} {i : Placed} (hi : p.fetch? k = some i) :
    Instruction.decode (p.codeBytes.drop i.offset) = .ok i.instruction := by
  obtain ⟨hbytes, hplaced⟩ := h.code_eq
  rw [fetch?, ← Array.getElem?_toList, hplaced, getElem?_placeCode, Option.map_eq_some_iff] at hi
  obtain ⟨j, hj, rfl⟩ := hi
  obtain ⟨hk, rfl⟩ := List.getElem?_eq_some_iff.1 hj
  rw [← hbytes, Nat.zero_add, drop_flatMap_encode, List.drop_eq_getElem_cons hk,
    List.flatMap_cons]
  exact Instruction.decode_encode_append _ _

theorem codeLen_eq (h : p.IsLoaded) : p.codeLen = codeSize p.instructions := by
  rw [← h.length_codeBytes, ← h.code_eq.1, length_flatMap_encode]

theorem instructions_ne_nil (h : p.IsLoaded) : p.instructions ≠ [] := by
  intro hnil
  have hpos := h.codeLen_bounds.1
  rw [h.codeLen_eq, hnil] at hpos
  exact Nat.lt_irrefl 0 hpos

end IsLoaded

/-- The instructions of a program that is loaded tile its code section. Conversely, all bytes that
    are put together from encodings are read as the instructions that they encode. -/
theorem load_tiles :
    (∀ (bytes : List UInt8) (p : Program), load bytes = .ok p →
      p.instructions.flatMap Instruction.encode = p.codeBytes ∧
      p.instructions ≠ [] ∧
      p.offsets.length = p.instructions.length ∧
      (∀ i, p.fetch? i = p.instructions[i]?.map (⟨codeSize (p.instructions.take i), ·⟩)) ∧
      p.offsets.head? = some 0 ∧
      p.offsets.Pairwise (· < ·) ∧
      p.codeLen = codeSize p.instructions ∧
      (∀ offset ∈ p.offsets, (UInt32.ofNat offset).toNat = offset)) ∧
    (∀ code : List Instruction, ∃ placed,
      decodeCode 0 (code.flatMap Instruction.encode) = .ok placed ∧
        placed.map (·.instruction) = code) := by
  refine ⟨fun bytes p hload => ?_, fun code =>
    ⟨_, decodeCode_flatMap_encode 0 code, map_instruction_placeCode 0 code⟩⟩
  obtain ⟨rfl, h⟩ := load_eq_ok_iff.1 hload
  obtain ⟨hbytes, hplaced⟩ := h.code_eq
  have hfits := h.codeLen_bounds.2
  have hlen := h.codeLen_eq
  have hne := h.instructions_ne_nil
  have hoffsets : p.offsets = (placeCode 0 p.instructions).map (·.offset) := by
    rw [offsets, hplaced]
  refine ⟨hbytes, hne, ?_, fun i => ?_, ?_, ?_, hlen, fun offset hoffset => ?_⟩
  · rw [offsets, instructions, List.length_map, List.length_map]
  · rw [fetch?, ← Array.getElem?_toList, hplaced, getElem?_placeCode]
    simp only [Nat.zero_add]
  · obtain ⟨i, code, hcode⟩ := List.exists_cons_of_ne_nil hne
    rw [hoffsets, hcode]
    rfl
  · rw [hoffsets, List.pairwise_map]
    exact pairwise_placeCode 0 _
  · -- offsets fit in four bytes, as the length of the section does
    rw [hoffsets] at hoffset
    obtain ⟨i, hi, rfl⟩ := List.mem_map.1 hoffset
    have := (bounds_of_mem_placeCode hi).2
    rw [UInt32.toNat_ofNat', Nat.mod_eq_of_lt (by omega)]

/-- The code of a signalling NaN that is pushed and returned, behind the table. -/
def nanImage : List UInt8 :=
  imageMagic ++ [1, 0, 0, 0, 1, 0, 0, 0] ++ [2, 0, 0, 0, 24, 0, 0, 0, 10, 0, 0, 0] ++
    [0x02, 1, 0, 0, 0, 0, 0, 0xF0, 0x7F, 0x4F]

theorem load_tiles_nan :
    ∃ p, load nanImage = .ok p ∧
      p.instructions.flatMap Instruction.encode = [0x02, 1, 0, 0, 0, 0, 0, 0xF0, 0x7F, 0x4F] ∧
      p.fetch? 1 = some ⟨9, .halt⟩ := by
  have hload : load nanImage = .ok
      { bytes := nanImage, header := { sectionCount := 1 }, sections := ⟨[⟨.code, 24, 10⟩]⟩
        constants := #[], lines := #[]
        code := #[⟨0, .pushFloat ⟨0x7FF0000000000001⟩⟩, ⟨9, .halt⟩] } := by
    decide +kernel
  obtain ⟨hbytes, -, -, hfetch, -⟩ := load_tiles.1 _ _ hload
  exact ⟨_, hload, hbytes, hfetch 1⟩

end Program

end StackMachine
