import StackMachine.Image.Builder
import StackMachine.Proofs.Image.Code
import StackMachine.Proofs.Image.ConstantPool
import StackMachine.Proofs.Image.SectionTable

/-!
# Loading what was laid out

An image is laid out as a header, a table and the sections behind it, one after the other. The
loader finds everything where it was put.

* `decode?_encodeImage`: the header;
* `body_of_mem_placeSections`: the sections;
* `Composed.parse_eq`, `Composed.find?_eq`: the table, and the sections through it;
* `Composed.load_eq`: the program;
* `load_encodeImage`, `exists_load_codeSections`: with constants and source lines, and without.
-/

namespace StackMachine

open Bytes

/-! ## The header -/

theorem length_header_encode (version count : UInt32) :
    ({ version, sectionCount := count } : Header).encode.length = 12 := by
  simp [Header.encode, imageMagic]

theorem decode?_append_header (version count : UInt32) (rest : List UInt8) :
    Header.decode? (({ version, sectionCount := count } : Header).encode ++ rest) =
      some { version, sectionCount := count } := by
  have hlen := length_header_encode version count
  have hmagic : slice (({ version, sectionCount := count } : Header).encode) 0 4 = imageMagic :=
    rfl
  have hversion : slice (({ version, sectionCount := count } : Header).encode) 4 4 =
      word 4 version.toNat := by
    simp [slice, Header.encode, imageMagic]
  have hcount : slice (({ version, sectionCount := count } : Header).encode) 8 4 =
      word 4 count.toNat := by
    simp [slice, Header.encode, imageMagic, List.take_of_length_le]
  rw [Header.decode?, if_pos (by simp [hlen, headerSize])]
  rw [slice_append_left (by omega), slice_append_left (by omega), slice_append_left (by omega)]
  rw [hmagic, hversion, hcount, wordValue_word_uint32, wordValue_word_uint32,
    UInt32.ofNat_toNat, UInt32.ofNat_toNat]

/-! ## Sections that follow each other -/

/-- The bytes of sections that follow each other. -/
def bodies (sections : List (SectionKind × List UInt8)) : List UInt8 :=
  sections.flatMap fun s => s.2

@[simp] theorem bodies_cons (kind : SectionKind) (body : List UInt8)
    (sections : List (SectionKind × List UInt8)) :
    bodies ((kind, body) :: sections) = body ++ bodies sections :=
  List.flatMap_cons

@[simp] theorem bodies_append (sections sections' : List (SectionKind × List UInt8)) :
    bodies (sections ++ sections') = bodies sections ++ bodies sections' :=
  List.flatMap_append

section

variable {offset : Nat} {sections : List (SectionKind × List UInt8)} {s : Section}

@[simp] theorem length_placeSections (offset : Nat) (sections : List (SectionKind × List UInt8)) :
    (placeSections offset sections).length = sections.length := by
  induction sections generalizing offset with
  | nil => rfl
  | cons s sections ih => rw [placeSections, List.length_cons, ih, List.length_cons]

@[simp] theorem map_kind_placeSections (offset : Nat)
    (sections : List (SectionKind × List UInt8)) :
    (placeSections offset sections).map (·.kind) = sections.map (·.1) := by
  induction sections generalizing offset with
  | nil => rfl
  | cons s sections ih => rw [placeSections, List.map_cons, ih, List.map_cons]

/-- A section lies where the bytes before it end. -/
theorem exists_of_mem_placeSections (hs : s ∈ placeSections offset sections) :
    ∃ before body after, sections = before ++ (s.kind, body) :: after ∧
      s.offset = UInt32.ofNat (offset + (bodies before).length) ∧
      s.len = UInt32.ofNat body.length := by
  induction sections generalizing offset with
  | nil => cases hs
  | cons head sections ih =>
    obtain ⟨kind, body⟩ := head
    rcases List.mem_cons.1 hs with rfl | hs
    · exact ⟨[], body, sections, rfl, rfl, rfl⟩
    · obtain ⟨before, body', after, rfl, hoffset, hlen⟩ := ih hs
      refine ⟨(kind, body) :: before, body', after, rfl, ?_, hlen⟩
      rw [hoffset, bodies_cons, List.length_append, Nat.add_assoc]

theorem start_of_mem_placeSections (hs : s ∈ placeSections offset sections)
    (hfits : offset + (bodies sections).length < 2 ^ 32) :
    ∃ before body after, sections = before ++ (s.kind, body) :: after ∧
      s.start = offset + (bodies before).length ∧ s.len.toNat = body.length := by
  obtain ⟨before, body, after, rfl, hoffset, hlen⟩ := exists_of_mem_placeSections hs
  rw [bodies_append, bodies_cons, List.length_append, List.length_append] at hfits
  refine ⟨before, body, after, rfl, ?_, ?_⟩
  · rw [Section.start, hoffset, UInt32.toNat_ofNat', Nat.mod_eq_of_lt (by omega)]
  · rw [hlen, UInt32.toNat_ofNat', Nat.mod_eq_of_lt (by omega)]

/-- A section lies behind what comes before all of them, and ends before the end of all. -/
theorem bounds_of_mem_placeSections (hs : s ∈ placeSections offset sections)
    (hfits : offset + (bodies sections).length < 2 ^ 32) :
    offset ≤ s.start ∧ s.stop ≤ offset + (bodies sections).length := by
  obtain ⟨before, body, after, rfl, hstart, hlen⟩ := start_of_mem_placeSections hs hfits
  have hstop : s.stop = s.start + s.len.toNat := rfl
  rw [hstop, hstart, hlen, bodies_append, bodies_cons, List.length_append, List.length_append]
  omega

/-- The bytes of a section are found where it lies. -/
theorem body_of_mem_placeSections {front : List UInt8}
    (hs : s ∈ placeSections front.length sections)
    (hfits : front.length + (bodies sections).length < 2 ^ 32) :
    (s.kind, s.body (front ++ bodies sections)) ∈ sections ∧
      s.len.toNat = (s.body (front ++ bodies sections)).length := by
  obtain ⟨before, body, after, rfl, hstart, hlen⟩ := start_of_mem_placeSections hs hfits
  have hbodies : front ++ bodies (before ++ (s.kind, body) :: after) =
      (front ++ bodies before) ++ (body ++ bodies after) := by
    rw [bodies_append, bodies_cons, List.append_assoc]
  have hbody : s.body (front ++ bodies (before ++ (s.kind, body) :: after)) = body := by
    rw [Section.body, hbodies, hstart, hlen, ← List.length_append, slice_between]
  rw [hbody]
  exact ⟨List.mem_append_right _ List.mem_cons_self, hlen⟩

theorem pairwise_placeSections (hfits : offset + (bodies sections).length < 2 ^ 32) :
    (placeSections offset sections).Pairwise fun s t => s.stop ≤ t.start := by
  induction sections generalizing offset with
  | nil => exact .nil
  | cons head sections ih =>
    obtain ⟨kind, body⟩ := head
    rw [bodies_cons, List.length_append, ← Nat.add_assoc] at hfits
    refine .cons (fun t ht => ?_) (ih hfits)
    obtain ⟨before, -, -, -, hstart, -⟩ := start_of_mem_placeSections ht hfits
    simp only [Section.stop, hstart, UInt32.toNat_ofNat']
    omega

end

/-! ## The table -/

/-- The sections of an image that can be loaded. -/
structure Composed (sections : List (SectionKind × List UInt8)) : Prop where
  /-- All positions fit in four bytes. -/
  fits : sectionsStart sections.length + (bodies sections).length < 2 ^ 32
  kinds : (sections.map (·.1)).Nodup
  code : ∃ body, (.code, body) ∈ sections ∧ body ≠ []
  debug : ∀ body, (.debug, body) ∈ sections → 8 ∣ body.length

/-- The header of an image with the given sections. -/
def composedHeader (version : UInt32) (sections : List (SectionKind × List UInt8)) : Header :=
  { version, sectionCount := UInt32.ofNat sections.length }

/-- The table of an image with the given sections. -/
def composedTable (sections : List (SectionKind × List UInt8)) : SectionTable :=
  ⟨placeSections (sectionsStart sections.length) sections⟩

/-- What comes before the sections: the header and the table. -/
def front (version : UInt32) (sections : List (SectionKind × List UInt8)) : List UInt8 :=
  (composedHeader version sections).encode ++
    (composedTable sections).entries.flatMap Section.encode

theorem length_flatMap_section_encode (ss : List Section) :
    (ss.flatMap Section.encode).length = 12 * ss.length := by
  induction ss with
  | nil => rfl
  | cons s ss ih =>
    rw [List.flatMap_cons, List.length_append, ih, List.length_cons]
    simp only [Section.encode, List.length_append, length_word]
    omega

theorem rawEntries_flatMap_encode (ss : List Section) :
    SectionTable.rawEntries (words32 (ss.flatMap Section.encode)) = ss.map Section.raw := by
  induction ss with
  | nil => rfl
  | cons s ss ih =>
    rw [List.flatMap_cons, Section.encode, List.append_assoc, List.append_assoc,
      words32_word_append, words32_word_append, words32_word_append, SectionTable.rawEntries, ih,
      List.map_cons, Section.raw]

section

variable {version : UInt32} {sections : List (SectionKind × List UInt8)}

theorem encodeImage_eq : encodeImage version sections = front version sections ++ bodies sections :=
  rfl

theorem length_front : (front version sections).length = sectionsStart sections.length := by
  rw [front, List.length_append, length_flatMap_section_encode, composedTable,
    length_placeSections, composedHeader, length_header_encode, sectionsStart, headerSize,
    sectionEntrySize, Nat.mul_comm]

@[simp] theorem length_encodeImage :
    (encodeImage version sections).length =
      sectionsStart sections.length + (bodies sections).length := by
  rw [encodeImage_eq, List.length_append, length_front]

theorem decode?_encodeImage :
    Header.decode? (encodeImage version sections) = some (composedHeader version sections) := by
  rw [encodeImage_eq, front, List.append_assoc]
  exact decode?_append_header _ _ _

theorem Composed.tableEnd_eq (h : Composed sections) :
    (composedHeader version sections).tableEnd = sectionsStart sections.length := by
  have hfits := h.fits
  rw [sectionsStart, sectionEntrySize] at hfits
  rw [Header.tableEnd, composedHeader, sectionsStart]
  simp only
  rw [UInt32.toNat_ofNat', Nat.mod_eq_of_lt (by omega)]

/-- The table is read as it was written. -/
theorem Composed.written_eq (h : Composed sections) :
    SectionTable.written (encodeImage version sections) (composedHeader version sections) =
      (composedTable sections).entries.map Section.raw := by
  have hfits : (composedHeader version sections).tableEnd ≤
      (encodeImage version sections).length := by
    rw [h.tableEnd_eq, length_encodeImage]
    exact Nat.le_add_right _ _
  have hlen : (composedHeader version sections).tableEnd - headerSize = 12 * sections.length := by
    rw [h.tableEnd_eq, sectionsStart, Nat.add_sub_cancel_left, sectionEntrySize, Nat.mul_comm]
  have htable := slice_between (composedHeader version sections).encode
    ((composedTable sections).entries.flatMap Section.encode) (bodies sections)
  rw [length_flatMap_section_encode, composedTable, length_placeSections,
    ← List.append_assoc] at htable
  rw [← SectionTable.rawEntries_table hfits, hlen, ← rawEntries_flatMap_encode]
  exact congrArg (SectionTable.rawEntries ∘ words32) htable

theorem Composed.nodup_kinds (h : Composed sections) :
    ((composedTable sections).entries.map (·.kind)).Nodup := by
  rw [composedTable, map_kind_placeSections]
  exact h.kinds

theorem Composed.body_of_mem (h : Composed sections) (version : UInt32) {s : Section}
    (hs : s ∈ (composedTable sections).entries) :
    (s.kind, s.body (encodeImage version sections)) ∈ sections ∧
      s.len.toNat = (s.body (encodeImage version sections)).length := by
  rw [encodeImage_eq]
  rw [composedTable, ← length_front] at hs
  exact body_of_mem_placeSections hs (length_front ▸ h.fits)

/-- What was put under a kind is found under it. -/
theorem Composed.find?_eq (h : Composed sections) (version : UInt32) {kind : SectionKind}
    {body : List UInt8} (hbody : (kind, body) ∈ sections) :
    ∃ s, (composedTable sections).find? kind = some s ∧
      s.body (encodeImage version sections) = body ∧ s.len.toNat = body.length := by
  have hkind : kind ∈ (composedTable sections).entries.map (·.kind) := by
    rw [composedTable, map_kind_placeSections]
    exact List.mem_map_of_mem hbody
  obtain ⟨s, hs, rfl⟩ := List.mem_map.1 hkind
  obtain ⟨hmem, hlen⟩ := h.body_of_mem version hs
  -- there is only one body under a kind
  have hsame := List.inj_on_of_nodup_map h.kinds hmem hbody rfl
  rw [Prod.mk.injEq] at hsame
  rw [hsame.2] at hlen
  exact ⟨s, (SectionTable.find?_eq_some_iff h.nodup_kinds).2 ⟨hs, rfl⟩, hsame.2, hlen⟩

/-- The table of an image that can be loaded. -/
theorem Composed.parse_eq (h : Composed sections) :
    SectionTable.parse (encodeImage version sections) (composedHeader version sections) =
      .ok (composedTable sections) := by
  refine SectionTable.parse_eq_ok_iff.2 ⟨?_, h.written_eq.symm, ?_⟩
  · rw [h.tableEnd_eq, length_encodeImage]
    exact Nat.le_add_right _ _
  rw [h.written_eq, h.tableEnd_eq, length_encodeImage]
  have hkinds := h.nodup_kinds
  refine SectionTable.wellFormed_map_raw_iff.2 ⟨fun s hs => ?_,
    SectionTable.nodup_map_kind_iff.1 hkinds, (SectionTable.defect?_eq_none_iff hkinds).2
      ⟨?_, ?_, fun s hs hdebug => ?_⟩⟩
  · obtain ⟨hstart, hstop⟩ := bounds_of_mem_placeSections hs h.fits
    exact ⟨hstop, fun _ => hstart⟩
  · -- the sections follow each other, so they share no byte
    refine (pairwise_placeSections h.fits).imp fun hst n hn => ?_
    omega
  · obtain ⟨body, hbody, hne⟩ := h.code
    obtain ⟨s, hfind, -, hlen⟩ := h.find?_eq version hbody
    obtain ⟨hs, hkind⟩ := (SectionTable.find?_eq_some_iff hkinds).1 hfind
    refine ⟨s, hs, hkind, fun hzero => hne ?_⟩
    rw [hzero] at hlen
    exact List.eq_nil_of_length_eq_zero hlen.symm
  · obtain ⟨hmem, hlen⟩ := h.body_of_mem version hs
    rw [hlen]
    exact h.debug _ (hdebug ▸ hmem)

theorem Composed.loadConstants_eq (h : Composed sections) (version : UInt32)
    {constants : List Value} (hcount : constants.length < 2 ^ 32)
    (hbody : (.constants, ConstantPool.encode constants) ∈ sections) :
    Program.loadConstants (encodeImage version sections) (composedTable sections) =
      .ok constants := by
  obtain ⟨s, hfind, hs, -⟩ := h.find?_eq version hbody
  simp only [Program.loadConstants, hfind, hs, ConstantPool.decode_encode hcount]

theorem Composed.loadCode_eq (h : Composed sections) (version : UInt32) {code : List Instruction}
    (hbody : (.code, code.flatMap Instruction.encode) ∈ sections) :
    Program.loadCode (encodeImage version sections) (composedTable sections) =
      .ok (placeCode 0 code) := by
  obtain ⟨s, hfind, hs, -⟩ := h.find?_eq version hbody
  simp only [Program.loadCode, hfind, hs, decodeCode_flatMap_encode]

theorem Composed.loadLines_eq (h : Composed sections) (version : UInt32) {lines : List LineEntry}
    (hlines : lines.Pairwise fun d e => d.offset < e.offset)
    (hbody : (.debug, lines.flatMap LineEntry.encode) ∈ sections) :
    Program.loadLines (encodeImage version sections) (composedTable sections) = lines := by
  obtain ⟨s, hfind, hs, -⟩ := h.find?_eq version hbody
  simp only [Program.loadLines, hfind, hs, LineEntry.decodeAll_flatMap_encode hlines]

/-- The program of an image that can be loaded. -/
theorem Composed.load_eq (h : Composed sections) (hversion : version ≤ imageVersion)
    {constants : List Value} {code : List Instruction} {lines : List LineEntry}
    (hconstants : Program.loadConstants (encodeImage version sections) (composedTable sections) =
      .ok constants)
    (hcode : (.code, code.flatMap Instruction.encode) ∈ sections)
    (hlines : Program.loadLines (encodeImage version sections) (composedTable sections) = lines) :
    Program.load (encodeImage version sections) =
      .ok
        { bytes := encodeImage version sections
          header := composedHeader version sections
          sections := composedTable sections
          constants := constants.toArray
          code := (placeCode 0 code).toArray
          lines := lines.toArray } := by
  have hsupported : (composedHeader version sections).isSupported = true :=
    decide_eq_true hversion
  rw [Program.load, decode?_encodeImage]
  simp only [hsupported, Program.loadSections, h.parse_eq, hconstants, h.loadCode_eq version hcode,
    hlines]
  rfl

/-- An image of a later version is not loaded, whatever its sections. -/
theorem load_encodeImage_of_lt (h : imageVersion < version) :
    Program.load (encodeImage version sections) = .error (.unsupportedVersion version) := by
  have hsupported : (composedHeader version sections).isSupported = false :=
    decide_eq_false (UInt32.not_le.2 h)
  rw [Program.load, decode?_encodeImage]
  simp only [hsupported]
  rfl

end

/-! ## Programs -/

section

variable {version : UInt32} {constants : List Value} {code : List Instruction}
  {lines : List LineEntry}

theorem length_programSections :
    (programSections constants code lines).length = if lines.isEmpty then 2 else 3 := by
  cases lines <;> rfl

theorem length_bodies_programSections :
    (bodies (programSections constants code lines)).length =
      (ConstantPool.encode constants).length + codeSize code + 8 * lines.length := by
  rw [programSections, bodies_append, bodies_cons, bodies_cons, List.length_append,
    List.length_append, List.length_append, length_flatMap_encode]
  cases lines with
  | nil => rfl
  | cons e lines =>
    have hdebug : bodies [(.debug, (e :: lines).flatMap LineEntry.encode)] =
        (e :: lines).flatMap LineEntry.encode :=
      List.append_nil _
    rw [← LineEntry.length_flatMap_encode]
    exact congrArg _ (congrArg _ hdebug)

theorem composed_programSections (hcode : code ≠ [])
    (hfits : (encodeImage version (programSections constants code lines)).length < 2 ^ 32) :
    Composed (programSections constants code lines) := by
  refine { fits := length_encodeImage ▸ hfits, kinds := ?_, code := ?_, debug := ?_ }
  · cases lines <;> simp [programSections]
  · exact ⟨_, List.mem_append_left _ (List.mem_cons_of_mem _ (List.mem_singleton_self _)),
      flatMap_encode_ne_nil hcode⟩
  · intro body hbody
    cases lines with
    | nil => simp [programSections] at hbody
    | cons e lines =>
      obtain rfl : body = (e :: lines).flatMap LineEntry.encode := by
        simpa [programSections] using hbody
      exact ⟨_, LineEntry.length_flatMap_encode _⟩

/-- The program of an image that was laid out is what was put in it. -/
theorem load_encodeImage (hversion : version ≤ imageVersion) (hcode : code ≠ [])
    (hlines : lines.Pairwise fun d e => d.offset < e.offset)
    (hfits : (encodeImage version (programSections constants code lines)).length < 2 ^ 32) :
    Program.load (encodeImage version (programSections constants code lines)) =
      .ok
        { bytes := encodeImage version (programSections constants code lines)
          header := composedHeader version (programSections constants code lines)
          sections := composedTable (programSections constants code lines)
          constants := constants.toArray
          code := (placeCode 0 code).toArray
          lines := lines.toArray } := by
  have h := composed_programSections hcode hfits
  have hcount : constants.length < 2 ^ 32 := by
    have hpool := ConstantPool.length_le_length_encode constants
    rw [length_encodeImage, programSections, List.cons_append, bodies_cons,
      List.length_append] at hfits
    omega
  have hdebug : Program.loadLines (encodeImage version (programSections constants code lines))
      (composedTable (programSections constants code lines)) = lines := by
    cases lines with
    | nil => rfl
    | cons =>
      exact h.loadLines_eq version hlines (List.mem_append_right _ (List.mem_singleton_self _))
  exact h.load_eq hversion (h.loadConstants_eq version hcount List.mem_cons_self)
    (List.mem_cons_of_mem _ List.mem_cons_self) hdebug

end

/-! ## Code alone -/

/-- The sections of code alone, with neither constants nor source lines. -/
def codeSections (code : List Instruction) : List (SectionKind × List UInt8) :=
  [(.code, code.flatMap Instruction.encode)]

section

variable {version : UInt32} {code : List Instruction}

/-- Header and table have 24 bytes. -/
theorem composed_codeSections (hcode : code ≠ []) (hfits : codeSize code + 24 < 2 ^ 32) :
    Composed (codeSections code) where
  fits := by
    rw [codeSections, bodies_cons, List.length_append, length_flatMap_encode, Nat.add_comm]
    exact hfits
  kinds := List.nodup_singleton _
  code := ⟨_, List.mem_singleton_self _, flatMap_encode_ne_nil hcode⟩
  debug _ hbody := by cases List.mem_singleton.1 hbody

theorem exists_load_codeSections (hversion : version ≤ imageVersion) (hcode : code ≠ [])
    (hfits : codeSize code + 24 < 2 ^ 32) :
    ∃ p, Program.load (encodeImage version (codeSections code)) = .ok p ∧
      p.code.toList = placeCode 0 code := by
  have hconstants : Program.loadConstants (encodeImage version (codeSections code))
      (composedTable (codeSections code)) = .ok [] := rfl
  have hlines : Program.loadLines (encodeImage version (codeSections code))
      (composedTable (codeSections code)) = [] := rfl
  exact ⟨_, (composed_codeSections hcode hfits).load_eq hversion hconstants
    (List.mem_singleton_self _) hlines, rfl⟩

end

end StackMachine
