import Mathlib.Data.List.Sort
import StackMachine.Image.Section
import StackMachine.Proofs.Bytes.Slice

/-!
# Section tables

The tables that are accepted. The parser looks at an entry with those before it in mind, and for
shared bytes only at neighbours in the order of the offsets. What it accepts can be said without any
order: `WellFormed` is a condition on the table as it is written.

* `SectionTable.written`: the entries of a table, whatever they hold;
* `SectionTable.WellFormed`: what is demanded of them;
* `checkEntries_eq_ok_iff`: the conditions on single entries and on their kinds;
* `overlapping?_eq_none_iff`: neighbours that share no byte are enough;
* `parse_eq_ok_iff`: the parser accepts the well-formed tables, and no others.
-/

namespace StackMachine

open Bytes

/-- The entry of a section as it is written. -/
def Section.raw (s : Section) : SectionTable.RawEntry :=
  ⟨s.kind.number, s.offset, s.len⟩

/-- Two sections share no byte. -/
def Section.Apart (s t : Section) : Prop :=
  ∀ n, ¬((s.start ≤ n ∧ n < s.stop) ∧ t.start ≤ n ∧ n < t.stop)

namespace SectionKind

theorem ofNumber?_eq_some_iff {number : UInt32} {kind : SectionKind} :
    ofNumber? number = some kind ↔ kind.number = number := by
  constructor
  · intro h
    unfold ofNumber? at h
    split at h <;> cases h <;> rfl
  · rintro rfl
    exact ofNumber?_number kind

theorem number_injective {kind kind' : SectionKind} (h : kind.number = kind'.number) :
    kind = kind' := by
  have := ofNumber?_number kind
  rw [h, ofNumber?_number] at this
  exact (Option.some.inj this).symm

/-- There are no other kinds. -/
theorem exists_number_iff {number : UInt32} :
    (∃ kind : SectionKind, kind.number = number) ↔ number = 1 ∨ number = 2 ∨ number = 3 := by
  constructor
  · rintro ⟨kind, rfl⟩
    cases kind
    · exact .inl rfl
    · exact .inr (.inl rfl)
    · exact .inr (.inr rfl)
  · rintro (rfl | rfl | rfl)
    · exact ⟨.constants, rfl⟩
    · exact ⟨.code, rfl⟩
    · exact ⟨.debug, rfl⟩

end SectionKind

namespace SectionTable

namespace RawEntry

/-- The byte at the position `n` of the image is in the section. -/
def Covers (e : RawEntry) (n : Nat) : Prop :=
  e.offset.toNat ≤ n ∧ n < e.offset.toNat + e.len.toNat

end RawEntry

/-! ## Tables as they are written -/

/-- The entry at a position of an image, whatever it holds. -/
def entryAt (image : List UInt8) (offset : Nat) : RawEntry :=
  ⟨wordAt image offset, wordAt image (offset + 4), wordAt image (offset + 8)⟩

/-- The entries of the table after the header `h`, whatever they hold. -/
def written (image : List UInt8) (h : Header) : List RawEntry :=
  (List.range h.sectionCount.toNat).map fun i => entryAt image (12 + 12 * i)

/-- The conditions on the entries of a table in an image of `size` bytes whose table ends at
    `tableEnd`. -/
structure WellFormed (size tableEnd : Nat) (entries : List RawEntry) : Prop where
  known : ∀ e ∈ entries, e.number = 1 ∨ e.number = 2 ∨ e.number = 3
  distinct : (entries.map (·.number)).Nodup
  inside : ∀ e ∈ entries, e.offset.toNat + e.len.toNat ≤ size
  behind : ∀ e ∈ entries, e.len ≠ 0 → tableEnd ≤ e.offset.toNat
  /-- No byte is in two sections. -/
  disjoint : entries.Pairwise fun d e => ∀ n, ¬(d.Covers n ∧ e.Covers n)
  code : ∃ e ∈ entries, e.number = 2 ∧ e.len ≠ 0
  debug : ∀ e ∈ entries, e.number = 3 → 8 ∣ e.len.toNat

theorem tableEnd_eq (h : Header) : h.tableEnd = 12 + 12 * h.sectionCount.toNat := by
  rw [Header.tableEnd, headerSize, sectionEntrySize, Nat.mul_comm]

theorem rawEntries_slice {image : List UInt8} {offset count : Nat}
    (h : offset + 12 * count ≤ image.length) :
    rawEntries (words32 (slice image offset (12 * count))) =
      (List.range count).map fun i => entryAt image (offset + 12 * i) := by
  induction count generalizing offset with
  | zero => rfl
  | succ count ih =>
    rw [words32_slice (by omega) (by omega), words32_slice (by omega) (by omega),
      words32_slice (by omega) (by omega), rawEntries]
    rw [show 12 * (count + 1) - 4 - 4 - 4 = 12 * count by omega]
    rw [ih (by omega), List.range_succ_eq_map, List.map_cons, List.map_map]
    refine congrArg₂ _ rfl (List.map_congr_left fun i _ => ?_)
    rw [Function.comp_apply, show offset + 4 + 4 + 4 + 12 * i = offset + 12 * i.succ by omega]

/-- What is read from an image are the entries of its table. -/
theorem rawEntries_table {image : List UInt8} {h : Header} (hfits : h.tableEnd ≤ image.length) :
    rawEntries (words32 (slice image headerSize (h.tableEnd - headerSize))) = written image h := by
  rw [tableEnd_eq] at hfits ⊢
  rw [headerSize, Nat.add_sub_cancel_left]
  exact rawEntries_slice hfits

/-! ## Single entries -/

/-- What is demanded of a section by itself. -/
def Placed (size tableEnd : Nat) (s : Section) : Prop :=
  s.stop ≤ size ∧ (s.len ≠ 0 → tableEnd ≤ s.start)

theorem checkEntry_eq_ok_iff {size tableEnd : Nat} {seen : List Section} {e : RawEntry}
    {s : Section} :
    checkEntry size tableEnd seen e = .ok s ↔
      s.raw = e ∧ Placed size tableEnd s ∧ ∀ t ∈ seen, t.kind ≠ s.kind := by
  have hpos (n : UInt32) : 0 < n ↔ n ≠ 0 := by
    rw [UInt32.lt_iff_toNat_lt, ne_eq, ← UInt32.toNat_inj]
    exact Nat.pos_iff_ne_zero
  constructor
  · intro h
    unfold checkEntry at h
    split at h
    · cases h
    rename_i kind hkind
    split at h
    · cases h
    rename_i hseen
    split at h
    · cases h
    rename_i hstop
    split at h <;> cases h
    rename_i hbehind
    refine ⟨?_, ⟨Nat.le_of_not_lt hstop, ?_⟩, ?_⟩
    · rw [Section.raw, SectionKind.ofNumber?_eq_some_iff.1 hkind]
    · intro hlen
      exact Nat.le_of_not_lt fun hlt => hbehind ⟨(hpos _).2 hlen, hlt⟩
    · simpa using hseen
  · rintro ⟨rfl, ⟨hstop, hbehind⟩, hseen⟩
    have hdistinct : ¬(seen.any fun t => t.kind == s.kind) = true := by
      simpa using hseen
    have hroom : ¬size < s.offset.toNat + s.len.toNat := Nat.not_lt_of_le hstop
    have htable : ¬(0 < s.len ∧ s.offset.toNat < tableEnd) := by
      rintro ⟨hlen, hlt⟩
      exact absurd hlt (Nat.not_lt_of_le (hbehind ((hpos _).1 hlen)))
    have hkind : SectionKind.ofNumber? s.raw.number = some s.kind :=
      SectionKind.ofNumber?_number s.kind
    rw [checkEntry, hkind]
    exact (if_neg hdistinct).trans ((if_neg hroom).trans (if_neg htable))

theorem checkEntries_eq_ok_iff {size tableEnd : Nat} {seen ss : List Section}
    {es : List RawEntry} :
    checkEntries size tableEnd seen es = .ok ss ↔
      ∃ new, ss = seen ++ new ∧ new.map Section.raw = es ∧
        (∀ s ∈ new, Placed size tableEnd s) ∧
        new.Pairwise (fun s t => s.kind ≠ t.kind) ∧
        ∀ s ∈ seen, ∀ t ∈ new, s.kind ≠ t.kind := by
  induction es generalizing seen with
  | nil =>
    rw [checkEntries]
    constructor
    · intro h
      cases h
      exact ⟨[], (List.append_nil _).symm, rfl, nofun, .nil, nofun⟩
    · rintro ⟨new, rfl, hnew, -⟩
      rw [List.map_eq_nil_iff.1 hnew, List.append_nil]
  | cons e es ih =>
    constructor
    · intro h
      rw [checkEntries] at h
      split at h
      · cases h
      rename_i s hs
      obtain ⟨hraw, hplaced, hseen⟩ := checkEntry_eq_ok_iff.1 hs
      obtain ⟨new, rfl, rfl, hnew, hkinds, hlater⟩ := ih.1 h
      -- the entries after `s` have `s` before them
      refine ⟨s :: new, List.append_assoc _ _ _, by rw [List.map_cons, hraw], ?_, ?_, ?_⟩
      · exact List.forall_mem_cons.2 ⟨hplaced, hnew⟩
      · exact .cons (fun t ht => hlater s (by simp) t ht) hkinds
      · intro t ht
        refine List.forall_mem_cons.2 ⟨hseen t ht, hlater t ?_⟩
        exact List.mem_append_left _ ht
    · rintro ⟨new, rfl, hnew, hplaced, hkinds, hlater⟩
      obtain ⟨s, new, rfl, rfl, rfl⟩ := List.map_eq_cons_iff.1 hnew
      have hs := List.forall_mem_cons.1 hplaced
      have hs' := List.pairwise_cons.1 hkinds
      have hentry : checkEntry size tableEnd seen s.raw = .ok s :=
        checkEntry_eq_ok_iff.2 ⟨rfl, hs.1, fun t ht => hlater t ht s List.mem_cons_self⟩
      rw [checkEntries, hentry]
      refine ih.2 ⟨new, (List.append_cons _ _ _), rfl, hs.2, hs'.2, ?_⟩
      intro t ht u hu
      rcases List.mem_append.1 ht with ht | ht
      · exact hlater t ht u (List.mem_cons_of_mem _ hu)
      · cases List.mem_singleton.1 ht
        exact hs'.1 u hu

/-! ## Shared bytes -/

/-- The order by offset. -/
def ByOffset (s t : Section) : Prop :=
  s.offset ≤ t.offset

instance : DecidableRel ByOffset := fun s t => inferInstanceAs (Decidable (s.offset ≤ t.offset))

instance : Std.Total ByOffset := ⟨fun _ _ => UInt32.le_total _ _⟩

instance : IsTrans Section ByOffset := ⟨fun _ _ _ => UInt32.le_trans⟩

theorem insertByOffset_eq (s : Section) (ss : List Section) :
    insertByOffset s ss = ss.orderedInsert ByOffset s := by
  induction ss with
  | nil => rfl
  | cons t ss ih =>
    rw [insertByOffset, List.orderedInsert_cons, ih]
    rfl

theorem foldr_insertByOffset (ss : List Section) :
    ss.foldr insertByOffset [] = ss.insertionSort ByOffset := by
  induction ss with
  | nil => rfl
  | cons s ss ih => rw [List.foldr_cons, List.insertionSort_cons, ih, insertByOffset_eq]

/-- The sections with any bytes in the order of their offsets. -/
def sorted (entries : List Section) : List Section :=
  (entries.filter fun s => !s.isEmpty).insertionSort ByOffset

theorem overlapping?_eq (entries : List Section) :
    overlapping? entries = overlap? (sorted entries) := by
  rw [overlapping?, foldr_insertByOffset, sorted]

theorem pairwise_sorted (entries : List Section) : (sorted entries).Pairwise ByOffset :=
  List.pairwise_insertionSort _ _

theorem perm_sorted (entries : List Section) :
    (sorted entries).Perm (entries.filter fun s => !s.isEmpty) :=
  List.perm_insertionSort _ _

theorem start_lt_stop_of_mem_sorted {entries : List Section} {s : Section}
    (h : s ∈ sorted entries) : s ∈ entries ∧ s.start < s.stop := by
  obtain ⟨hmem, hlen⟩ := List.mem_filter.1 ((perm_sorted entries).mem_iff.1 h)
  refine ⟨hmem, ?_⟩
  have hne : s.len.toNat ≠ 0 := by
    intro hzero
    have : s.len = 0 := UInt32.toNat_inj.1 hzero
    simp [Section.isEmpty, this] at hlen
  simp only [Section.start, Section.stop]
  omega

/-- Of two sections with bytes, the one that starts first ends before the other one if they share
    none. -/
theorem apart_iff {s t : Section} (hst : ByOffset s t) (ht : t.start < t.stop) :
    s.Apart t ↔ s.stop ≤ t.start := by
  constructor
  · intro h
    refine Nat.le_of_not_lt fun hlt => h t.start ⟨⟨?_, hlt⟩, Nat.le_refl _, ht⟩
    exact UInt32.le_iff_toNat_le.1 hst
  · intro h n hn
    omega

theorem overlap?_eq_none_iff {ss : List Section} :
    overlap? ss = none ↔ ss.IsChain fun s t => s.stop ≤ t.start := by
  induction ss with
  | nil => exact ⟨fun _ => .nil, fun _ => rfl⟩
  | cons s ss ih =>
    cases ss with
    | nil => exact ⟨fun _ => .singleton s, fun _ => rfl⟩
    | cons t ss =>
      rw [overlap?, List.isChain_cons_cons, ← ih]
      by_cases h : t.start < s.stop
      · simp [h]
      · simp [h, Nat.le_of_not_lt h]

theorem apart_of_isEmpty {s t : Section} (h : s.isEmpty ∨ t.isEmpty) : s.Apart t := by
  intro n hn
  simp only [Section.isEmpty, beq_iff_eq, Section.start, Section.stop] at h hn
  rcases h with h | h <;> simp only [h, UInt32.toNat_zero] at hn <;> omega

/-- No neighbours in the order of the offsets share a byte exactly if no sections do. -/
theorem overlapping?_eq_none_iff {entries : List Section} :
    overlapping? entries = none ↔ entries.Pairwise Section.Apart := by
  have htrans : IsTrans Section fun s t => s.stop ≤ t.start :=
    ⟨fun s t u hst htu => Nat.le_trans hst (Nat.le_trans (Nat.le_add_right _ _) htu)⟩
  have hsymm : ∀ {s t : Section}, s.Apart t → t.Apart s := fun h n hn => h n hn.symm
  have hsorted : ((sorted entries).Pairwise fun s t => s.stop ≤ t.start) ↔
      (sorted entries).Pairwise Section.Apart := by
    constructor
    · intro h
      refine ((pairwise_sorted entries).and h).imp_of_mem fun _ ht hst => ?_
      exact (apart_iff hst.1 (start_lt_stop_of_mem_sorted ht).2).2 hst.2
    · intro h
      refine ((pairwise_sorted entries).and h).imp_of_mem fun _ ht hst => ?_
      exact (apart_iff hst.1 (start_lt_stop_of_mem_sorted ht).2).1 hst.2
  rw [overlapping?_eq, overlap?_eq_none_iff, List.isChain_iff_pairwise, hsorted,
    (perm_sorted entries).pairwise_iff hsymm, List.pairwise_filter]
  -- An empty section shares no byte with any other.
  refine ⟨fun h => h.imp fun {s t} hst => ?_, fun h => h.imp fun hst _ _ => hst⟩
  by_cases hempty : s.isEmpty ∨ t.isEmpty
  · exact apart_of_isEmpty hempty
  · rw [not_or] at hempty
    exact hst (by simpa using hempty.1) (by simpa using hempty.2)

/-- The sections that are named as overlapping are neighbours in the order of the offsets. -/
theorem sublist_of_overlap? {ss : List Section} {a b : SectionKind}
    (h : overlap? ss = some (a, b)) :
    ∃ s t, [s, t].Sublist ss ∧ s.kind = a ∧ t.kind = b ∧ t.start < s.stop := by
  induction ss with
  | nil => cases h
  | cons s ss ih =>
    cases ss with
    | nil => cases h
    | cons t ss =>
      rw [overlap?] at h
      split at h
      · rename_i hlt
        cases h
        exact ⟨s, t, ((List.nil_sublist ss).cons_cons t).cons_cons s, rfl, rfl, hlt⟩
      · obtain ⟨s', t', hsub, hkinds⟩ := ih h
        exact ⟨s', t', hsub.cons s, hkinds⟩

/-- They share a byte, the first one starts no later than the second, and they are not the same. -/
theorem overlapping?_eq_some {entries : List Section} {a b : SectionKind}
    (hkinds : (entries.map (·.kind)).Nodup) (h : overlapping? entries = some (a, b)) :
    a ≠ b ∧ ∃ s ∈ entries, ∃ t ∈ entries, s.kind = a ∧ t.kind = b ∧ s.offset ≤ t.offset ∧
      ¬s.Apart t := by
  rw [overlapping?_eq] at h
  obtain ⟨s, t, hsub, rfl, rfl, hlt⟩ := sublist_of_overlap? h
  obtain ⟨hs, -⟩ := start_lt_stop_of_mem_sorted (hsub.subset List.mem_cons_self)
  obtain ⟨ht, hbytes⟩ :=
    start_lt_stop_of_mem_sorted (hsub.subset (List.mem_cons_of_mem _ List.mem_cons_self))
  have hst : ByOffset s t := List.pairwise_pair.1 ((pairwise_sorted entries).sublist hsub)
  refine ⟨?_, s, hs, t, ht, rfl, rfl, hst, ?_⟩
  · have hnodup : ((sorted entries).map (·.kind)).Nodup :=
      ((perm_sorted entries).map _).nodup_iff.2 (hkinds.sublist (List.filter_sublist.map _))
    simpa using hnodup.sublist (hsub.map _)
  · rw [apart_iff hst hbytes]
    exact Nat.not_le_of_lt hlt

/-! ## Whole tables -/

theorem find?_eq_some_iff {table : SectionTable} {kind : SectionKind} {s : Section}
    (hkinds : (table.entries.map (·.kind)).Nodup) :
    table.find? kind = some s ↔ s ∈ table.entries ∧ s.kind = kind := by
  have hfound {s : Section} (h : table.find? kind = some s) :
      s ∈ table.entries ∧ s.kind = kind :=
    ⟨List.mem_of_find?_eq_some h, by simpa using List.find?_some h⟩
  refine ⟨hfound, fun ⟨hs, hkind⟩ => ?_⟩
  cases h : table.find? kind with
  | none =>
    have := List.find?_eq_none.1 h s hs
    simp [hkind] at this
  | some t =>
    obtain ⟨ht, hkind'⟩ := hfound h
    rw [List.inj_on_of_nodup_map hkinds ht hs (hkind'.trans hkind.symm)]

theorem defect?_eq_none_iff {table : SectionTable}
    (hkinds : (table.entries.map (·.kind)).Nodup) :
    table.defect? = none ↔
      table.entries.Pairwise Section.Apart ∧
        (∃ s ∈ table.entries, s.kind = .code ∧ s.len ≠ 0) ∧
        ∀ s ∈ table.entries, s.kind = .debug → 8 ∣ s.len.toNat := by
  -- the conditions on the code and debug sections, of which there is at most one each
  have hcode : (∃ s ∈ table.entries, s.kind = .code ∧ s.len ≠ 0) ↔
      ∃ s, table.find? .code = some s ∧ s.isEmpty = false := by
    simp [find?_eq_some_iff hkinds, and_assoc, Section.isEmpty]
  have hdebug : (∀ s ∈ table.entries, s.kind = .debug → 8 ∣ s.len.toNat) ↔
      ∀ s, table.find? .debug = some s → s.len.toNat % lineEntrySize = 0 := by
    simp [find?_eq_some_iff hkinds, and_imp, lineEntrySize, Nat.dvd_iff_mod_eq_zero]
  rw [← overlapping?_eq_none_iff, hcode, hdebug, defect?]
  cases overlapping? table.entries with
  | some kinds => simp
  | none =>
    cases table.find? .code with
    | none => simp
    | some code =>
      cases hempty : code.isEmpty with
      | true => simp [hempty]
      | false => cases table.find? .debug <;> simp [hempty]

/-- Entries of known kinds are those of sections. -/
theorem exists_map_raw {es : List RawEntry}
    (h : ∀ e ∈ es, e.number = 1 ∨ e.number = 2 ∨ e.number = 3) :
    ∃ ss : List Section, ss.map Section.raw = es := by
  induction es with
  | nil => exact ⟨[], rfl⟩
  | cons e es ih =>
    obtain ⟨he, hes⟩ := List.forall_mem_cons.1 h
    obtain ⟨kind, hkind⟩ := SectionKind.exists_number_iff.2 he
    obtain ⟨ss, rfl⟩ := ih hes
    exact ⟨⟨kind, e.offset, e.len⟩ :: ss, by rw [List.map_cons, Section.raw, hkind]⟩

theorem nodup_map_kind_iff {ss : List Section} :
    (ss.map (·.kind)).Nodup ↔ ss.Pairwise fun s t => s.kind ≠ t.kind :=
  List.pairwise_map

/-- What the checks demand of sections is what is demanded of their entries. -/
theorem wellFormed_map_raw_iff {size tableEnd : Nat} {ss : List Section} :
    WellFormed size tableEnd (ss.map Section.raw) ↔
      (∀ s ∈ ss, Placed size tableEnd s) ∧ ss.Pairwise (fun s t => s.kind ≠ t.kind) ∧
        (⟨ss⟩ : SectionTable).defect? = none := by
  have hnumber (kind kind' : SectionKind) : kind = kind' ↔ kind.number = kind'.number :=
    ⟨congrArg _, SectionKind.number_injective⟩
  have hdistinct : ((ss.map Section.raw).map (·.number)).Nodup ↔
      ss.Pairwise fun s t => s.kind ≠ t.kind := by
    simp only [List.Nodup, List.pairwise_map, Section.raw, ne_eq, hnumber]
  have hcode : (∃ e ∈ ss.map Section.raw, e.number = 2 ∧ e.len ≠ 0) ↔
      ∃ s ∈ ss, s.kind = .code ∧ s.len ≠ 0 := by
    simp only [List.mem_map, exists_exists_and_eq_and, Section.raw, hnumber _ .code]
    rfl
  have hdebug : (∀ e ∈ ss.map Section.raw, e.number = 3 → 8 ∣ e.len.toNat) ↔
      ∀ s ∈ ss, s.kind = .debug → 8 ∣ s.len.toNat := by
    simp only [List.forall_mem_map, Section.raw, hnumber _ .debug]
    rfl
  constructor
  · intro h
    have hkinds := hdistinct.1 h.distinct
    refine ⟨fun s hs => ⟨?_, ?_⟩, hkinds, ?_⟩
    · exact h.inside _ (List.mem_map_of_mem hs)
    · exact h.behind _ (List.mem_map_of_mem hs)
    · have hapart := List.pairwise_map.1 h.disjoint
      exact (defect?_eq_none_iff (nodup_map_kind_iff.2 hkinds)).2
        ⟨hapart, hcode.1 h.code, hdebug.1 h.debug⟩
  · rintro ⟨hplaced, hkinds, hdefect⟩
    obtain ⟨hapart, hcode', hdebug'⟩ :=
      (defect?_eq_none_iff (nodup_map_kind_iff.2 hkinds)).1 hdefect
    exact
      { known := List.forall_mem_map.2 fun s _ => SectionKind.exists_number_iff.1 ⟨s.kind, rfl⟩
        distinct := hdistinct.2 hkinds
        inside := List.forall_mem_map.2 fun s hs => (hplaced s hs).1
        behind := List.forall_mem_map.2 fun s hs => (hplaced s hs).2
        disjoint := List.pairwise_map.2 hapart
        code := hcode.2 hcode'
        debug := hdebug.2 hdebug' }

/-- The parser accepts the well-formed tables, and reads them as they are written. -/
theorem parse_eq_ok_iff {image : List UInt8} {h : Header} {table : SectionTable} :
    parse image h = .ok table ↔
      h.tableEnd ≤ image.length ∧ table.entries.map Section.raw = written image h ∧
        WellFormed image.length h.tableEnd (written image h) := by
  rw [parse]
  by_cases hfits : h.tableEnd ≤ image.length
  · rw [if_neg (Nat.not_lt_of_le hfits)]
    simp only [hfits, true_and, rawEntries_table hfits]
    constructor
    · intro hparse
      split at hparse
      · cases hparse
      rename_i entries hentries
      split at hparse <;> cases hparse
      rename_i hdefect
      obtain ⟨new, rfl, hraw, hplaced, hkinds, -⟩ := checkEntries_eq_ok_iff.1 hentries
      exact ⟨hraw, hraw ▸ wellFormed_map_raw_iff.2 ⟨hplaced, hkinds, hdefect⟩⟩
    · rintro ⟨hraw, hwell⟩
      rw [← hraw] at hwell ⊢
      obtain ⟨hplaced, hkinds, hdefect⟩ := wellFormed_map_raw_iff.1 hwell
      have hentries : checkEntries image.length h.tableEnd [] (table.entries.map Section.raw) =
          .ok table.entries :=
        checkEntries_eq_ok_iff.2 ⟨table.entries, rfl, rfl, hplaced, hkinds, nofun⟩
      rw [hentries]
      simp only [hdefect]
  · rw [if_pos (Nat.lt_of_not_le hfits)]
    simp [hfits]

/-- Sections that overlap are found only when all entries are accepted. -/
theorem checkEntries_ne_overlap {size tableEnd : Nat} {seen : List Section}
    {es : List RawEntry} {a b : SectionKind} :
    checkEntries size tableEnd seen es ≠ .error (.overlap a b) := by
  induction es generalizing seen with
  | nil => nofun
  | cons e es ih =>
    rw [checkEntries]
    cases hentry : checkEntry size tableEnd seen e with
    | ok s => exact ih
    | error err =>
      intro h
      cases h
      unfold checkEntry at hentry
      split at hentry
      · cases hentry
      split at hentry
      · cases hentry
      split at hentry
      · cases hentry
      split at hentry <;> cases hentry

theorem overlapping?_of_defect? {table : SectionTable} {a b : SectionKind}
    (h : table.defect? = some (.overlap a b)) : overlapping? table.entries = some (a, b) := by
  rw [defect?] at h
  split at h
  · rename_i hoverlap
    cases h
    exact hoverlap
  · split at h
    · cases h
    split at h
    · cases h
    split at h
    · cases h
    split at h <;> cases h

/-- If two sections are named as overlapping, then all entries are accepted by themselves. -/
theorem parse_eq_overlap {image : List UInt8} {h : Header} {a b : SectionKind}
    (hparse : parse image h = .error (.overlap a b)) :
    ∃ ss : List Section, ss.map Section.raw = written image h ∧ (ss.map (·.kind)).Nodup ∧
      overlapping? ss = some (a, b) := by
  rw [parse] at hparse
  by_cases hfits : h.tableEnd ≤ image.length
  · rw [if_neg (Nat.not_lt_of_le hfits)] at hparse
    simp only [rawEntries_table hfits] at hparse
    split at hparse
    · rename_i err hentries
      cases hparse
      exact absurd hentries checkEntries_ne_overlap
    rename_i entries hentries
    split at hparse <;> cases hparse
    rename_i hdefect
    obtain ⟨new, rfl, hraw, -, hkinds, -⟩ := checkEntries_eq_ok_iff.1 hentries
    exact ⟨_, hraw, nodup_map_kind_iff.2 hkinds, overlapping?_of_defect? hdefect⟩
  · rw [if_pos (Nat.lt_of_not_le hfits)] at hparse
    cases hparse

/-- The parser accepts exactly the well-formed tables, and reads them as they are written. If it
    says that two sections overlap, then some byte is in both of them, and the one named first
    starts no later than the other one. -/
theorem parse_accepts_wellFormed (image : List UInt8) (h : Header) :
    ((∃ table, parse image h = .ok table) ↔
        12 + 12 * h.sectionCount.toNat ≤ image.length ∧
          WellFormed image.length (12 + 12 * h.sectionCount.toNat) (written image h)) ∧
      (∀ table, parse image h = .ok table → table.entries.map Section.raw = written image h) ∧
      ∀ a b, parse image h = .error (.overlap a b) →
        ((written image h).map (·.number)).Nodup ∧
          ∃ d ∈ written image h, ∃ e ∈ written image h, d.number = a.number ∧
            e.number = b.number ∧ a ≠ b ∧ d.offset ≤ e.offset ∧ ∃ n, d.Covers n ∧ e.Covers n := by
  rw [← tableEnd_eq]
  refine ⟨⟨?_, ?_⟩, fun table hparse => (parse_eq_ok_iff.1 hparse).2.1, ?_⟩
  · rintro ⟨table, hparse⟩
    obtain ⟨hfits, -, hwell⟩ := parse_eq_ok_iff.1 hparse
    exact ⟨hfits, hwell⟩
  · rintro ⟨hfits, hwell⟩
    obtain ⟨ss, hraw⟩ := exists_map_raw hwell.known
    exact ⟨⟨ss⟩, parse_eq_ok_iff.2 ⟨hfits, hraw, hwell⟩⟩
  · intro a b hparse
    obtain ⟨ss, hraw, hkinds, hoverlap⟩ := parse_eq_overlap hparse
    obtain ⟨hne, s, hs, t, ht, rfl, rfl, hst, hapart⟩ := overlapping?_eq_some hkinds hoverlap
    rw [← hraw]
    refine ⟨?_, s.raw, List.mem_map_of_mem hs, t.raw, List.mem_map_of_mem ht, rfl, rfl, hne, hst,
      ?_⟩
    · have hnumbers := hkinds.map fun _ _ => SectionKind.number_injective
      rw [List.map_map] at hnumbers ⊢
      exact hnumbers
    · exact not_forall_not.1 hapart

/-- A table of constants and code, in an image of six bytes more. -/
def twoSections (codeOffset : UInt8) : List UInt8 :=
  List.replicate 12 0 ++ [1, 0, 0, 0, 36, 0, 0, 0, 4, 0, 0, 0] ++
    [2, 0, 0, 0, codeOffset, 0, 0, 0, 2, 0, 0, 0] ++ List.replicate 6 0

/-- The code may start where the constants end, but not before. -/
theorem parse_accepts_wellFormed_adjacent :
    WellFormed 42 36 (written (twoSections 40) { sectionCount := 2 }) ∧
      ∃ d ∈ written (twoSections 39) { sectionCount := 2 },
        ∃ e ∈ written (twoSections 39) { sectionCount := 2 },
          d.number = 1 ∧ e.number = 2 ∧ ∃ n, d.Covers n ∧ e.Covers n := by
  have haccepted : parse (twoSections 40) { sectionCount := 2 } =
      .ok ⟨[⟨.constants, 36, 4⟩, ⟨.code, 40, 2⟩]⟩ := rfl
  have hrejected : parse (twoSections 39) { sectionCount := 2 } =
      .error (.overlap .constants .code) := rfl
  obtain ⟨haccepts, -, -⟩ := parse_accepts_wellFormed (twoSections 40) { sectionCount := 2 }
  obtain ⟨-, -, hoverlap⟩ := parse_accepts_wellFormed (twoSections 39) { sectionCount := 2 }
  obtain ⟨-, d, hd, e, he, hconstants, hcode, -, -, hshared⟩ := hoverlap _ _ hrejected
  exact ⟨(haccepts.1 ⟨_, haccepted⟩).2, d, hd, e, he, hconstants, hcode, hshared⟩

end SectionTable

end StackMachine
