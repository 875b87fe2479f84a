import StackMachine.Proofs.Image.ConstantPool
import StackMachine.Proofs.Image.Loading
import StackMachine.Proofs.Machine.Reach

/-!
# Programs with the same code

An image says more than what is executed: a version, an order of the sections, where they lie,
source lines, and bytes that belong to no section. None of it reaches the machine. A run looks at
the constants and at the instructions with their offsets, and these are determined by the bytes of
their sections alone.

* `Program.SameCode`: two programs that differ in nothing that a run looks at;
* `Program.SameCode.execute_eq`: their runs are the same, for every observer;
* `Program.IsLoaded.sameCode`: images with the same constants and the same bytes of code;
* `execute_of_codeBytes_eq`: what this says of two images.
-/

namespace StackMachine

namespace Program

/-- Two programs have the same constants and the same instructions at the same offsets. -/
structure SameCode (p q : Program) : Prop where
  constants : p.constants = q.constants
  code : p.code = q.code

namespace SameCode

variable {p q : Program} (h : p.SameCode q) (limits : Limits)

include h

theorem constant?_eq (index : Nat) : p.constant? index = q.constant? index := by
  rw [constant?, h.constants, constant?]

theorem fetch?_eq (index : Nat) : p.fetch? index = q.fetch? index := by
  rw [fetch?, h.code, fetch?]

theorem indexOf?_eq (offset : Nat) : p.indexOf? offset = q.indexOf? offset := by
  rw [indexOf?, h.code, indexOf?]

/-- Instructions look at nothing else in a program. -/
theorem step_eq (i : Instruction) (m : Machine) :
    Machine.step p limits i m = Machine.step q limits i m := by
  have hjump (target : UInt32) (m : Machine) :
      (Machine.storage p limits).jump p target m = (Machine.storage q limits).jump q target m := by
    rw [Storage.jump, Storage.jump, h.indexOf?_eq]
    rfl
  have hbranch (op : Opcode) (taken : Bool) (target : UInt32) (m : Machine) :
      (Machine.storage p limits).branch p op taken target m =
        (Machine.storage q limits).branch q op taken target m := by
    simp only [Storage.branch, hjump]
    rfl
  have henter (target : UInt32) (argc : UInt8) (locals : UInt16) (m : Machine) :
      (Machine.storage p limits).enter target argc locals m =
        (Machine.storage q limits).enter target argc locals m := by
    simp only [Machine.storage, Machine.enter, h.indexOf?_eq]
  cases i with
  | pushConst index =>
    simp only [Machine.step, Storage.step, h.constant?_eq]
    rfl
  | jump | jumpIfFalse | jumpIfTrue | call =>
    simp only [Machine.step, Storage.step, hjump, hbranch, henter]
  | _ => rfl

theorem advance_eq {m : Machine} {i : Placed} (hi : q.fetch? m.pc = some i) :
    Machine.advance p limits m = Machine.advance q limits m := by
  rw [Machine.advance_eq hi, Machine.advance_eq ((h.fetch?_eq _).trans hi), h.step_eq]

theorem executeFrom_eq {σ : Type} (observe : σ → Event → σ) (fuel : Nat) (m : Machine) (s : σ) :
    Machine.executeFrom p limits observe fuel m s =
      Machine.executeFrom q limits observe fuel m s := by
  induction fuel generalizing m s with
  | zero =>
    rcases Machine.advance_cases q limits m with hi | ⟨i, hi, -⟩
    · rw [Machine.executeFrom_incomplete s hi,
        Machine.executeFrom_incomplete s ((h.fetch?_eq _).trans hi)]
    · rw [Machine.executeFrom_exhausted s hi,
        Machine.executeFrom_exhausted s ((h.fetch?_eq _).trans hi)]
  | succ fuel ih =>
    rcases Machine.advance_cases q limits m with
      hi | ⟨i, hi, ⟨f, hm⟩ | ⟨v, _, hm⟩ | ⟨τ, m', hm, hτ⟩⟩
    · rw [Machine.executeFrom_incomplete s hi,
        Machine.executeFrom_incomplete s ((h.fetch?_eq _).trans hi)]
    all_goals
      have hi' := (h.fetch?_eq _).trans hi
      have hm' := (h.advance_eq limits hi).trans hm
    · rw [Machine.executeFrom_fault s hi hm, Machine.executeFrom_fault s hi' hm']
    · rw [Machine.executeFrom_halted s hi hm, Machine.executeFrom_halted s hi' hm']
    · rw [Machine.executeFrom_state s hi hm hτ, Machine.executeFrom_state s hi' hm' hτ, ih]

/-- Whoever observes the runs, they have the same result, as many instructions and the same
    events. -/
theorem execute_eq {σ : Type} (observe : σ → Event → σ) (start : σ) :
    execute p limits observe start = execute q limits observe start := by
  rw [execute, h.executeFrom_eq, execute]

end SameCode

namespace IsLoaded

variable {p q : Program}

/-- The instructions are what the code section is decoded as, wherever it lies. -/
theorem decodeCode_codeBytes (h : p.IsLoaded) : decodeCode 0 p.codeBytes = .ok p.code.toList := by
  obtain ⟨hbytes, hplaced⟩ := h.code_eq
  rw [← hbytes, decodeCode_flatMap_encode, hplaced]

theorem sameCode (hp : p.IsLoaded) (hq : q.IsLoaded)
    (hconstants : List.Forall₂ (fun v w => v.identical w) p.constants.toList q.constants.toList)
    (hcode : p.codeBytes = q.codeBytes) : p.SameCode q where
  constants := Array.toList_inj.1 (ConstantPool.forall₂_identical_iff.1 hconstants)
  code := by
    have hdecode := hp.decodeCode_codeBytes
    rw [hcode, hq.decodeCode_codeBytes] at hdecode
    exact Array.toList_inj.1 (Except.ok.inj hdecode).symm

end IsLoaded

end Program

/-- Execution depends on the constants and on the bytes of the code, and on nothing else in an
    image. The runs of two images that agree in these have the same result, the same number of
    instructions and the same events under any limits, and they are the same for every observer. -/
theorem execute_of_codeBytes_eq {image image' : List UInt8} {p q : Program}
    (hp : Program.load image = .ok p) (hq : Program.load image' = .ok q)
    (hconstants : List.Forall₂ (fun v w => v.identical w) p.constants.toList q.constants.toList)
    (hcode : p.codeBytes = q.codeBytes) (limits : Limits) :
    events p limits = events q limits ∧
      ∀ {σ : Type} (observe : σ → Event → σ) (start : σ),
        execute p limits observe start = execute q limits observe start := by
  have hsame := (Program.load_eq_ok_iff.1 hp).2.sameCode (Program.load_eq_ok_iff.1 hq).2
    hconstants hcode
  exact ⟨hsame.execute_eq limits _ _, fun observe start => hsame.execute_eq limits observe start⟩

/-- `Program.addition` in an image of an older version, without a section for its constants, which
    are none, and with a line of its source in front of the code. There is a byte between the two
    sections, and the image goes on after the code. -/
def Program.additionMoved : Program where
  bytes :=
    [86, 69, 76, 65, 0, 0, 0, 0, 2, 0, 0, 0,
      3, 0, 0, 0, 36, 0, 0, 0, 8, 0, 0, 0, 2, 0, 0, 0, 45, 0, 0, 0, 35, 0, 0, 0,
      27, 0, 0, 0, 3, 0, 0, 0,
      255,
      1, 20, 0, 0, 0, 0, 0, 0, 0, 1, 22, 0, 0, 0, 0, 0, 0, 0, 72, 27, 0, 0, 0, 2, 3, 0, 79,
      16, 0, 0, 16, 1, 0, 32, 73,
      255, 255]
  header := { version := 0, sectionCount := 2 }
  sections := ⟨[⟨.debug, 36, 8⟩, ⟨.code, 45, 35⟩]⟩
  constants := #[]
  code := addition.code
  lines := #[⟨27, 3⟩]

theorem execute_of_codeBytes_eq_addition :
    Program.addition.codeBytes = Program.additionMoved.codeBytes ∧
      Program.addition.sections ≠ Program.additionMoved.sections ∧
      events .addition {} = events .additionMoved {} := by
  have hload : Program.load Program.additionMoved.bytes = .ok .additionMoved := by decide +kernel
  have hcode : Program.addition.codeBytes = Program.additionMoved.codeBytes := by decide +kernel
  exact ⟨hcode, by decide,
    (execute_of_codeBytes_eq Program.load_addition hload .nil hcode {}).1⟩

end StackMachine
