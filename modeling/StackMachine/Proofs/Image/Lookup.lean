import StackMachine.Proofs.Image.Loading

/-!
# Looking up offsets

A branch goes to an offset, and the machine looks for the instruction that starts there by
bisection. As the offsets ascend, the instruction is found if there is one, and no other one is.

* `bisect?_eq_some_iff`: what bisection finds in an ascending sequence;
* `Program.indexOf?_eq_some_iff`: the position of an offset in code without gaps;
* `Program.load_finds`: the offsets of instructions are found in a program that is loaded, and no
  others are.
-/

namespace StackMachine

variable {key : Nat → Nat} {target fuel lo count i : Nat}

/-- Bisection finds nothing but what it is to find, in the part searched. -/
theorem eq_of_bisectFrom? (h : bisectFrom? key target fuel lo count = some i) :
    lo ≤ i ∧ i < lo + count ∧ key i = target := by
  -- Both halves that the search goes on with lie in the part searched.
  induction fuel generalizing lo count with
  | zero => cases h
  | succ fuel ih =>
    simp only [bisectFrom?] at h
    split at h
    · cases h
    · split at h
      · have := ih h
        omega
      · split at h
        · have := ih h
          omega
        · cases h
          omega

/-- In an ascending sequence it is found. The part searched gets shorter in every step, so the fuel
    is enough. -/
theorem bisectFrom?_of_eq (hkey : ∀ a b, a < b → b < lo + count → key a < key b)
    (hfuel : count ≤ fuel) (hlo : lo ≤ i) (hi : i < lo + count) (htarget : key i = target) :
    bisectFrom? key target fuel lo count = some i := by
  induction fuel generalizing lo count with
  | zero => omega
  | succ fuel ih =>
    have hmiddle : lo + count / 2 < lo + count := by omega
    rw [bisectFrom?, if_neg (by omega)]
    dsimp only
    rcases Nat.lt_trichotomy i (lo + count / 2) with hlt | heq | hgt
    · have hless := hkey _ _ hlt hmiddle
      rw [if_pos (htarget ▸ hless)]
      exact ih (fun a b hab hb => hkey a b hab (by omega)) (by omega) hlo hlt
    · rw [if_neg (by rw [← heq]; omega), if_neg (by rw [← heq]; omega), heq]
    · have hless := hkey _ _ hgt hi
      rw [if_neg (by omega), if_pos (htarget ▸ hless)]
      exact ih (fun a b hab hb => hkey a b hab (by omega)) (by omega) hgt (by omega)

/-- What bisection finds in an ascending sequence. -/
theorem bisect?_eq_some_iff (hkey : ∀ a b, a < b → b < count → key a < key b) :
    bisect? key count target = some i ↔ i < count ∧ key i = target := by
  constructor
  · intro h
    obtain ⟨-, hi, htarget⟩ := eq_of_bisectFrom? h
    exact ⟨by omega, htarget⟩
  · rintro ⟨hi, htarget⟩
    exact bisectFrom?_of_eq (by simpa using hkey) (Nat.le_refl _) (Nat.zero_le _) (by omega) htarget

namespace Program

variable {p : Program} {offset : Nat}

theorem indexOf?_lt (h : p.indexOf? offset = some i) : i < p.code.size := by
  obtain ⟨-, hi, -⟩ := eq_of_bisectFrom? h
  omega

section

variable {code : List Instruction} (hcode : p.code.toList = placeCode 0 code)

include hcode

/-- The offset of an instruction is the size of all those before it. -/
theorem fetch?_eq (i : Nat) : p.fetch? i = code[i]?.map (⟨codeSize (code.take i), ·⟩) := by
  rw [fetch?, ← Array.getElem?_toList, hcode, getElem?_placeCode]
  simp only [Nat.zero_add]

/-- The position of an offset is that of the instruction that starts there. -/
theorem indexOf?_eq_some_iff :
    p.indexOf? offset = some i ↔ i < code.length ∧ codeSize (code.take i) = offset := by
  have hlen : p.code.size = code.length := by
    rw [← Array.length_toList, hcode, ← List.length_map (·.instruction), map_instruction_placeCode]
  have hkey (j : Nat) (hj : j < code.length) :
      (p.code.getD j default).offset = codeSize (code.take j) := by
    have hfetch := fetch?_eq hcode j
    rw [List.getElem?_eq_getElem hj, fetch?] at hfetch
    rw [Array.getD_eq_getD_getElem?, hfetch]
    rfl
  rw [indexOf?, hlen, bisect?_eq_some_iff fun a b hab hb => ?_]
  · exact and_congr_right fun hi => by rw [hkey i hi]
  · rw [hkey a (by omega), hkey b hb]
    exact codeSize_take_lt hab (by omega)

/-- An offset between the beginnings of two neighbours is found nowhere. -/
theorem indexOf?_eq_none_of_between (hi : i < code.length) (hlower : codeSize (code.take i) < offset)
    (hupper : offset < codeSize (code.take (i + 1))) : p.indexOf? offset = none := by
  refine Option.eq_none_iff_forall_ne_some.2 fun j hj => ?_
  obtain ⟨hlt, rfl⟩ := (indexOf?_eq_some_iff hcode).1 hj
  have hij : i ≤ j := le_of_codeSize_take_le hi.le hlower.le
  have hji : j ≤ i + 1 := le_of_codeSize_take_le hlt.le hupper.le
  obtain rfl | rfl : j = i ∨ j = i + 1 := by omega
  · exact Nat.lt_irrefl _ hlower
  · exact Nat.lt_irrefl _ hupper

/-- At the end of the code and beyond it there is no instruction. -/
theorem indexOf?_eq_none_of_le (h : codeSize code ≤ offset) : p.indexOf? offset = none := by
  refine Option.eq_none_iff_forall_ne_some.2 fun j hj => ?_
  obtain ⟨hlt, rfl⟩ := (indexOf?_eq_some_iff hcode).1 hj
  have hless := codeSize_take_lt hlt hlt
  rw [List.take_length] at hless
  exact Nat.not_le_of_lt hless h

end

/-- In a program that is loaded, an offset is found exactly if the sizes of the first instructions
    add up to it, and then the instruction after these is found. Hence the offset of every
    instruction, which fits in 32 bits, is that of no other one, and nothing is found at the bytes
    of its operands, at the end of the code or beyond. -/
theorem load_finds {bytes : List UInt8} (hload : load bytes = .ok p) :
    (∀ (offset : UInt32) (i : Nat), p.indexOf? offset.toNat = some i ↔
      i < p.instructions.length ∧
        ((p.instructions.take i).map Instruction.size).sum = offset.toNat) ∧
    (∀ i < p.instructions.length, ∃ placed, p.fetch? i = some placed ∧
      (UInt32.ofNat placed.offset).toNat = placed.offset ∧
      p.indexOf? (UInt32.ofNat placed.offset).toNat = some i ∧
      ∀ offset : UInt32, placed.offset < offset.toNat →
        offset.toNat < placed.offset + placed.instruction.size →
        p.indexOf? offset.toNat = none) ∧
    ∀ offset : UInt32, p.codeLen ≤ offset.toNat → p.indexOf? offset.toNat = none := by
  have h := (load_eq_ok_iff.1 hload).2
  have hplaced := h.code_eq.2
  refine ⟨fun offset i => indexOf?_eq_some_iff hplaced, fun i hi => ?_, fun offset hle => ?_⟩
  · have hlt := codeSize_take_lt hi hi
    rw [List.take_length, ← h.codeLen_eq] at hlt
    have hfits : (UInt32.ofNat (codeSize (p.instructions.take i))).toNat =
        codeSize (p.instructions.take i) := by
      rw [UInt32.toNat_ofNat', Nat.mod_eq_of_lt (hlt.trans h.codeLen_bounds.2)]
    refine ⟨⟨codeSize (p.instructions.take i), p.instructions[i]⟩, ?_, hfits, ?_,
      fun offset hlower hupper => indexOf?_eq_none_of_between hplaced hi hlower ?_⟩
    · rw [fetch?_eq hplaced, List.getElem?_eq_getElem hi, Option.map_some]
    · rw [hfits]
      exact (indexOf?_eq_some_iff hplaced).2 ⟨hi, rfl⟩
    · rwa [codeSize_take_succ hi]
  · exact indexOf?_eq_none_of_le hplaced (h.codeLen_eq ▸ hle)

/-- The code of an integer that is pushed and returned. The first byte of its operand is that of
    `halt`. -/
def hiddenHaltImage : List UInt8 :=
  imageMagic ++ [1, 0, 0, 0, 1, 0, 0, 0] ++ [2, 0, 0, 0, 24, 0, 0, 0, 10, 0, 0, 0] ++
    [0x01, 0x4F, 0, 0, 0, 0, 0, 0, 0, 0x4F]

/-- The `halt` at the end is found, and the one in the operand is not. -/
theorem load_finds_hiddenHalt :
    ∃ p, load hiddenHaltImage = .ok p ∧ p.indexOf? 9 = some 1 ∧ p.indexOf? 1 = none ∧
      p.indexOf? 10 = none := by
  have hload : load hiddenHaltImage = .ok
      { bytes := hiddenHaltImage, header := { sectionCount := 1 }, sections := ⟨[⟨.code, 24, 10⟩]⟩
        constants := #[], lines := #[]
        code := #[⟨0, .pushInt 0x4F⟩, ⟨9, .halt⟩] } := by
    decide +kernel
  obtain ⟨hexact, hinside, hend⟩ := load_finds hload
  obtain ⟨placed, hfetch, -, -, hnone⟩ := hinside 0 (by decide)
  cases hfetch
  exact ⟨_, hload, (hexact 9 1).2 (by decide), hnone 1 (by decide) (by decide),
    hend 10 (by decide)⟩

end Program

end StackMachine
