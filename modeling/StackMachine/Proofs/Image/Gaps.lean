import StackMachine.Proofs.Image.Loading

/-!
# Bytes that are not read

Besides the header, the table and the sections there may be other bytes in an image, between the
sections or behind them. None of them is read, so they may be anything, and more of them may follow:
the program is the same.

* `SectionTable.parse_congr`: the table is accepted in a longer image as well;
* `Program.Reads`: the bytes that a program is loaded from;
* `Program.load_congr`: images that agree in these have the same program.
-/

namespace StackMachine

open Bytes

section

variable {image image' : List UInt8} {h : Header}

theorem Header.ofImage_congr (hread : ∀ n < headerSize, image'[n]? = image[n]?) :
    ofImage image' = ofImage image := by
  have hmagic : image'.take 4 = image.take 4 :=
    @slice_congr _ _ 0 4 fun n _ hn => hread n (Nat.lt_trans hn (by decide))
  have hword (offset : Nat) (hoffset : offset + 4 ≤ headerSize) :
      wordAt image' offset = wordAt image offset :=
    wordAt_congr fun n _ hn => hread n (by omega)
  rw [ofImage, ofImage, hmagic, hword 4 (by decide), hword 8 (by decide)]

namespace SectionTable

theorem written_congr (hread : ∀ n < h.tableEnd, image'[n]? = image[n]?) :
    written image' h = written image h := by
  rw [tableEnd_eq] at hread
  refine List.map_congr_left fun i hi => ?_
  have hi := List.mem_range.1 hi
  have hword (offset : Nat) (hoffset : offset + 4 ≤ 12 + 12 * i + 12) :
      wordAt image' offset = wordAt image offset :=
    wordAt_congr fun n _ hn => hread n (by omega)
  rw [entryAt, entryAt, hword _ (by omega), hword _ (by omega), hword _ (by omega)]

/-- In a longer image there is more room for sections. -/
theorem WellFormed.mono {size size' tableEnd : Nat} {entries : List RawEntry}
    (hwell : WellFormed size tableEnd entries) (hsize : size ≤ size') :
    WellFormed size' tableEnd entries :=
  { hwell with inside := fun e he => (hwell.inside e he).trans hsize }

/-- A table that is accepted is accepted in a longer image as well. -/
theorem parse_congr {table : SectionTable} (hparse : parse image h = .ok table)
    (hlen : image.length ≤ image'.length) (hread : ∀ n < h.tableEnd, image'[n]? = image[n]?) :
    parse image' h = .ok table := by
  obtain ⟨hfits, hraw, hwell⟩ := parse_eq_ok_iff.1 hparse
  refine parse_eq_ok_iff.2 ⟨hfits.trans hlen, ?_⟩
  rw [written_congr hread]
  exact ⟨hraw, hwell.mono hlen⟩

end SectionTable

end

namespace Program

/-- Whether the byte at the position `n` of the image belongs to the header, the table or a
    section. -/
def Reads (p : Program) (n : Nat) : Prop :=
  n < p.header.tableEnd ∨ ∃ s ∈ p.sections.entries, s.start ≤ n ∧ n < s.stop

section

variable {p : Program} {bytes' : List UInt8}
  (hread : ∀ n, p.Reads n → bytes'[n]? = p.bytes[n]?)

include hread

/-- The sections have the same bytes. -/
theorem body_congr {kind : SectionKind} {s : Section} (hs : p.sections.find? kind = some s) :
    s.body bytes' = s.body p.bytes :=
  slice_congr fun n hstart hstop =>
    hread n (.inr ⟨s, List.mem_of_find?_eq_some hs, hstart, hstop⟩)

theorem loadConstants_congr :
    loadConstants bytes' p.sections = loadConstants p.bytes p.sections := by
  rw [loadConstants, loadConstants]
  cases hs : p.sections.find? .constants with
  | none => rfl
  | some s => simp only [body_congr hread hs]

theorem loadCode_congr : loadCode bytes' p.sections = loadCode p.bytes p.sections := by
  rw [loadCode, loadCode]
  cases hs : p.sections.find? .code with
  | none => rfl
  | some s => simp only [body_congr hread hs]

theorem loadLines_congr : loadLines bytes' p.sections = loadLines p.bytes p.sections := by
  rw [loadLines, loadLines]
  cases hs : p.sections.find? .debug with
  | none => rfl
  | some s => simp only [body_congr hread hs]

/-- Every stage of loading gives the same. -/
theorem IsLoaded.congr (h : p.IsLoaded) (hlen : p.bytes.length ≤ bytes'.length) :
    IsLoaded { p with bytes := bytes' } := by
  have htable : headerSize ≤ p.header.tableEnd := Nat.le_add_right _ _
  have hfits := htable.trans (SectionTable.parse_eq_ok_iff.1 h.sections).1
  have hheader := h.header
  rw [Header.decode?_eq_ofImage hfits, ← Header.ofImage_congr fun n hn =>
    hread n (.inl (Nat.lt_of_lt_of_le hn htable))] at hheader
  exact
    { header := (Header.decode?_eq_ofImage (hfits.trans hlen)).trans hheader
      magic := h.magic
      version := h.version
      sections := SectionTable.parse_congr h.sections hlen fun n hn => hread n (.inl hn)
      constants := (loadConstants_congr hread).trans h.constants
      code := (loadCode_congr hread).trans h.code
      lines := (loadLines_congr hread).trans h.lines }

end

/-- Only the header, the table and the sections of an image are read. Any image that is at least as
    long and has the same bytes there has the same program, whatever its other bytes are. -/
theorem load_congr {bytes bytes' : List UInt8} {p : Program} (hload : load bytes = .ok p)
    (hlen : bytes.length ≤ bytes'.length)
    (hread : ∀ n, p.Reads n → bytes'[n]? = bytes[n]?) :
    load bytes' = .ok { p with bytes := bytes' } := by
  obtain ⟨rfl, h⟩ := load_eq_ok_iff.1 hload
  exact load_eq_ok_iff.2 ⟨rfl, h.congr hread hlen⟩

/-- An image with three bytes between the table and the code, and `rest` behind. -/
def gapImage (gap rest : List UInt8) : List UInt8 :=
  imageMagic ++ [1, 0, 0, 0, 1, 0, 0, 0] ++ [2, 0, 0, 0, 27, 0, 0, 0, 2, 0, 0, 0] ++ gap ++
    [0x03, 0x4F] ++ rest

theorem load_congr_gap :
    load (gapImage [0xFF, 0xFE, 0xFD] [0x4F, 0x76]) = .ok
      { bytes := gapImage [0xFF, 0xFE, 0xFD] [0x4F, 0x76], header := { sectionCount := 1 }
        sections := ⟨[⟨.code, 27, 2⟩]⟩, constants := #[], lines := #[]
        code := #[⟨0, .pushTrue⟩, ⟨1, .halt⟩] } := by
  have hload : load (gapImage [0, 0, 0] []) = .ok
      { bytes := gapImage [0, 0, 0] [], header := { sectionCount := 1 }
        sections := ⟨[⟨.code, 27, 2⟩]⟩, constants := #[], lines := #[]
        code := #[⟨0, .pushTrue⟩, ⟨1, .halt⟩] } := by
    decide +kernel
  have hfront : ∀ n < 24, (gapImage [0xFF, 0xFE, 0xFD] [0x4F, 0x76])[n]? =
      (gapImage [0, 0, 0] [])[n]? := by
    decide
  have hcode : ∀ n < 29, 27 ≤ n → (gapImage [0xFF, 0xFE, 0xFD] [0x4F, 0x76])[n]? =
      (gapImage [0, 0, 0] [])[n]? := by
    decide
  refine load_congr hload (by decide) ?_
  rintro n (hn | ⟨s, hs, hstart, hstop⟩)
  · exact hfront n hn
  · cases List.mem_singleton.1 hs
    exact hcode n hstop hstart

end Program

end StackMachine
