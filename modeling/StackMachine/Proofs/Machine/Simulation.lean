import StackMachine.Machine.Storage
import StackMachine.Proofs.Image.Lookup

/-!
# Simulation between storages

The instructions are the same over every storage. So if the operations of two storages agree on
related states, then so do all instructions, and with them whole runs. Every comparison of two
machines, or of two runs of one machine, is an instance: it chooses the relation and owes one
fact for each operation.

* `Agree`: two results that are related values, or related errors;
* `Simulation`: the operations of two storages agree on related states;
* `Simulation.step`: then the instructions do.

A property of the states of one storage is the case in which a state is related to itself. How
results are compared does not matter for the instructions either (`Comparison`), as long as
comparing goes on from one operation to the next (`Comparison.Simulation.step`).

The programs need not be the same. Two instructions that differ at most in where they go compare as
well (`Instruction.Moved`), and it is enough to look at the values that a program can get at
(`Comparison.Correspondence`).
-/

namespace StackMachine

/-- Two results agree: they are errors related by `E`, or values related by `R`. -/
inductive Agree {ε ε' α β : Type} (E : ε → ε' → Prop) (R : α → β → Prop) :
    Except ε α → Except ε' β → Prop
  | ok {a : α} {b : β} : R a b → Agree E R (.ok a) (.ok b)
  | error {e : ε} {e' : ε'} : E e e' → Agree E R (.error e) (.error e')

namespace Agree

variable {ε ε' α β γ δ : Type} {E : ε → ε' → Prop} {R : α → β → Prop} {Q : γ → δ → Prop}

/-- What agrees goes on to agree if the continuations do. -/
theorem bind {x : Except ε α} {y : Except ε' β} {f : α → Except ε γ} {g : β → Except ε' δ}
    (hxy : Agree E R x y) (hfg : ∀ a b, R a b → Agree E Q (f a) (g b)) :
    Agree E Q (x >>= f) (y >>= g) := by
  cases hxy with
  | ok hab => exact hfg _ _ hab
  | error he => exact .error he

/-- A result agrees with itself, up to what is known of its value and its error. -/
theorem refl {E : ε → ε → Prop} {R : α → α → Prop} {x : Except ε α}
    (hok : ∀ a, x = .ok a → R a a) (herror : ∀ e, x = .error e → E e e) : Agree E R x x := by
  cases x with
  | ok a => exact .ok (hok a rfl)
  | error e => exact .error (herror e rfl)

/-- A result agrees with the one in which the errors are translated. -/
theorem mapError {R : α → α → Prop} {x : Except ε α} {f : ε → ε'}
    (hok : ∀ a, x = .ok a → R a a) : Agree (fun e e' => e = f e') R (x.mapError f) x := by
  cases x with
  | ok a => exact .ok (hok a rfl)
  | error e => exact .error rfl

/-- A result agrees with the one in which the value is translated. -/
theorem map {R : α → β → Prop} {x : Except ε α} {f : α → β}
    (hok : ∀ a, x = .ok a → R a (f a)) : Agree Eq R x (x.map f) := by
  cases x with
  | ok a => exact .ok (hok a rfl)
  | error e => exact .error rfl

/-- What agrees up to a translation of values is the same, once translated. -/
theorem map_eq {x : Except ε α} {y : Except ε β} {R : α → β → Prop} {f : α → β}
    (h : Agree Eq R x y) (hR : ∀ a b, R a b → f a = b) : x.map f = y := by
  cases h with
  | ok hab => exact congrArg Except.ok (hR _ _ hab)
  | error he => exact congrArg Except.error he

/-- What agrees also does so with less known of the values. -/
theorem imp {P : α → β → Prop} {x : Except ε α} {y : Except ε' β} (h : Agree E R x y)
    (hRP : ∀ a b, R a b → P a b) : Agree E P x y := by
  cases h with
  | ok hab => exact .ok (hRP _ _ hab)
  | error he => exact .error he

/-- Only a value agrees with a value. -/
theorem ok_left {a : α} {y : Except ε' β} (h : Agree E R (.ok a) y) : ∃ b, y = .ok b ∧ R a b := by
  cases h with
  | ok hab => exact ⟨_, rfl, hab⟩

end Agree

/-- A way to compare two results, by a relation between their values. -/
structure Comparison (ε ε' : Type) where
  Holds {α β : Type} : (α → β → Prop) → Except ε α → Except ε' β → Prop
  ok {α β : Type} {R : α → β → Prop} {a : α} {b : β} : R a b → Holds R (.ok a) (.ok b)
  /-- What compares goes on to compare if the continuations do. -/
  bind {α β γ δ : Type} {R : α → β → Prop} {Q : γ → δ → Prop} {x : Except ε α} {y : Except ε' β}
    {f : α → Except ε γ} {g : β → Except ε' δ} : Holds R x y →
      (∀ a b, R a b → Holds Q (f a) (g b)) → Holds Q (x >>= f) (y >>= g)

namespace Comparison

variable {ε ε' : Type}

/-- What compares also does so with less known of the values. -/
theorem imp (C : Comparison ε ε') {α β : Type} {R P : α → β → Prop} {x : Except ε α}
    {y : Except ε' β} (h : C.Holds R x y) (hRP : ∀ a b, R a b → P a b) : C.Holds P x y := by
  have hbind := C.bind h fun a b hab => C.ok (hRP a b hab)
  have hpure {ε α : Type} (x : Except ε α) : x >>= Except.ok = x := by
    cases x <;> rfl
  rwa [hpure, hpure] at hbind

/-- Both results are values, or both are errors. -/
def agreement (E : ε → ε' → Prop) : Comparison ε ε' where
  Holds := Agree E
  ok := .ok
  bind := Agree.bind

/-- Nothing is said unless both results are values. -/
def joint : Comparison ε ε' where
  Holds R x y := ∀ a b, x = .ok a → y = .ok b → R a b
  ok := by
    rintro α β R a b hab _ _ ⟨⟩ ⟨⟩
    exact hab
  bind := by
    intro α β γ δ R Q x y f g hxy hfg c d hc hd
    cases x with
    | error e => cases hc
    | ok a =>
      cases y with
      | error e => cases hd
      | ok b => exact hfg a b (hxy a b rfl rfl) c d hc hd

/-- If the first result is a value, then so is the second one. -/
def onward : Comparison ε ε' where
  Holds R x y := ∀ a, x = .ok a → ∃ b, y = .ok b ∧ R a b
  ok := by
    rintro α β R a b hab _ ⟨⟩
    exact ⟨b, rfl, hab⟩
  bind := by
    intro α β γ δ R Q x y f g hxy hfg c hc
    cases x with
    | error e => cases hc
    | ok a =>
      obtain ⟨b, rfl, hab⟩ := hxy a rfl
      exact hfg a b hab c hc

end Comparison

namespace Fault

/-- The fault is one that an instruction raises. The others end a run between two
    instructions. -/
def FromInstruction : Fault → Prop
  | budgetExceeded _ => False
  | incompleteProgram => False
  | _ => True

/-- The fault is one that an instruction raises on its own, whatever the storage is. -/
def Intrinsic : Fault → Prop
  | typeMismatch .. => True
  | divisionByZero _ => True
  | invalidConstant _ => True
  | invalidJumpTarget _ => True
  | _ => False

theorem Intrinsic.fromInstruction {f : Fault} (h : f.Intrinsic) : f.FromInstruction := by
  cases f <;> trivial

end Fault

theorem UnaryOp.fault_of_apply {op : UnaryOp} {v : Value} {f : Fault}
    (h : op.apply v = .error f) : f.Intrinsic := by
  cases op <;> cases v <;> cases h <;> trivial

theorem ArithmeticOp.fault_of_apply {op : ArithmeticOp} {v w : Value} {f : Fault}
    (h : op.apply v w = .error f) : f.Intrinsic := by
  unfold ArithmeticOp.apply at h
  split at h
  · cases op <;> simp only [onInts] at h <;> (try split at h) <;> cases h <;> trivial
  · split at h <;> cases h
    trivial

theorem OrderOp.fault_of_apply {op : OrderOp} {v w : Value} {f : Fault}
    (h : op.apply v w = .error f) : f.Intrinsic := by
  unfold OrderOp.apply at h
  split at h
  · cases h
  · split at h <;> cases h
    trivial

theorem BinaryOp.fault_of_apply {op : BinaryOp} {v w : Value} {f : Fault}
    (h : op.apply v w = .error f) : f.Intrinsic := by
  cases op with
  | arithmetic op => exact op.fault_of_apply h
  | order op => exact op.fault_of_apply h
  | eq => cases h
  | ne => cases h
  | and | or =>
    -- the operands are Boolean, or their types do not fit
    simp only [apply, onBools] at h
    split at h <;> cases h
    trivial

/-! ## The values that are computed -/

/-- Operators compute no error values, whatever they are applied to. -/
theorem UnaryOp.isError_of_apply {op : UnaryOp} {v w : Value} (h : op.apply v = .ok w) :
    w.isError = false := by
  cases op <;> cases v <;> cases h <;> rfl

theorem ArithmeticOp.isError_of_apply {op : ArithmeticOp} {v w x : Value}
    (h : op.apply v w = .ok x) : x.isError = false := by
  unfold ArithmeticOp.apply at h
  split at h
  · rename_i a b
    cases hresult : op.onInts a b <;> rw [hresult] at h <;> cases h
    rfl
  · split at h <;> cases h
    rfl

theorem OrderOp.isError_of_apply {op : OrderOp} {v w x : Value} (h : op.apply v w = .ok x) :
    x.isError = false := by
  unfold OrderOp.apply at h
  split at h
  · cases h
    rfl
  · split at h <;> cases h
    rfl

theorem BinaryOp.isError_of_apply {op : BinaryOp} {v w x : Value} (h : op.apply v w = .ok x) :
    x.isError = false := by
  cases op with
  | arithmetic op => exact op.isError_of_apply h
  | order op => exact op.isError_of_apply h
  | eq | ne =>
    cases h
    rfl
  | and | or =>
    simp only [apply, onBools] at h
    split at h <;> cases h
    rfl

/-! ## Instructions -/

/-- Two instructions are the same, but for the places that they go to, which `G` relates. -/
inductive Instruction.Moved (G : UInt32 → UInt32 → Prop) : Instruction → Instruction → Prop
  | same {i : Instruction} : i.target? = none → Moved G i i
  | jump {target target' : UInt32} : G target target' → Moved G (.jump target) (.jump target')
  | jumpIfFalse {target target' : UInt32} : G target target' →
      Moved G (.jumpIfFalse target) (.jumpIfFalse target')
  | jumpIfTrue {target target' : UInt32} : G target target' →
      Moved G (.jumpIfTrue target) (.jumpIfTrue target')
  | call {target target' : UInt32} {argc : UInt8} {locals : UInt16} : G target target' →
      Moved G (.call target argc locals) (.call target' argc locals)

/-- An instruction is the same as itself, if every place is related to itself. -/
theorem Instruction.Moved.refl {G : UInt32 → UInt32 → Prop} (hG : ∀ target, G target target)
    (i : Instruction) : i.Moved G i := by
  cases i with
  | jump target => exact .jump (hG target)
  | jumpIfFalse target => exact .jumpIfFalse (hG target)
  | jumpIfTrue target => exact .jumpIfTrue (hG target)
  | call target => exact .call (hG target)
  | _ => exact .same rfl

theorem Instruction.moved_withTarget {G : UInt32 → UInt32 → Prop} {target target' : UInt32}
    (h : G target target') (i : Instruction) : (i.withTarget target).Moved G (i.withTarget target') := by
  cases i with
  | jump => exact .jump h
  | jumpIfFalse => exact .jumpIfFalse h
  | jumpIfTrue => exact .jumpIfTrue h
  | call => exact .call h
  | _ => exact .same rfl

theorem Instruction.Moved.imp {G G' : UInt32 → UInt32 → Prop} {i j : Instruction} (h : i.Moved G j)
    (hG : ∀ target target', G target target' → G' target target') : i.Moved G' j := by
  cases h with
  | same hi => exact .same hi
  | jump htarget => exact .jump (hG _ _ htarget)
  | jumpIfFalse htarget => exact .jumpIfFalse (hG _ _ htarget)
  | jumpIfTrue htarget => exact .jumpIfTrue (hG _ _ htarget)
  | call htarget => exact .call (hG _ _ htarget)

theorem Instruction.Moved.size_eq {G : UInt32 → UInt32 → Prop} {i j : Instruction}
    (h : i.Moved G j) : j.size = i.size := by
  cases h <;> rfl

namespace Comparison

/-- The operations of `A` with the program `p` compare with those of `B` with the program `q`, on
    states related by `R` and places related by `G`, and the results of instructions with
    transitions related by `Q`. The programs have the same constants. All values that these
    programs get at are among `V`, as constants are and what is no error. -/
structure Correspondence {ε ε' S T : Type} (C : Comparison ε ε') (p q : Program)
    (G : UInt32 → UInt32 → Prop) (V : Value → Prop) (A : Storage ε S) (B : Storage ε' T)
    (R : S → T → Prop) (Q : Transition S → Transition T → Prop) : Prop where
  constant (index : Nat) : p.constant? index = q.constant? index
  ofConstant {index : Nat} {v : Value} : p.constant? index = some v → V v
  ofNotError {v : Value} : v.isError = false → V v
  fault {α β : Type} {P : α → β → Prop} {s t} {f : Fault} : f.Intrinsic → R s t →
    C.Holds P (.error (A.fault f s)) (.error (B.fault f t))
  push {s t} {v : Value} : V v → R s t → C.Holds R (A.push v s) (B.push v t)
  pop {s t} (op : Opcode) : R s t →
    C.Holds (fun x y => x.1 = y.1 ∧ V x.1 ∧ R x.2 y.2) (A.pop op s) (B.pop op t)
  load {s t} (slot : UInt16) : R s t →
    C.Holds (fun v w => v = w ∧ V v) (A.load slot s) (B.load slot t)
  store {s t} (slot : UInt16) : R s t → C.Holds R (A.store slot s) (B.store slot t)
  jump {s t} {target target' : UInt32} : G target target' → R s t →
    C.Holds R (A.jump p target s) (B.jump q target' t)
  enter {s t} {target target' : UInt32} (argc : UInt8) (locals : UInt16) : G target target' →
    R s t → C.Holds (fun s' t' => Q (.called target s') (.called target' t'))
      (A.enter target argc locals s) (B.enter target' argc locals t)
  leave {s t} : R s t → C.Holds Q (A.leave s) (B.leave t)
  next {s t} : R s t → Q (.next s) (.next t)
  halted {s t} {v : Value} : V v → R s t → Q (.halted v s) (.halted v t)

namespace Correspondence

variable {ε ε' S T : Type} {C : Comparison ε ε'} {p q : Program} {G : UInt32 → UInt32 → Prop}
  {V : Value → Prop} {A : Storage ε S} {B : Storage ε' T} {R : S → T → Prop}
  {Q : Transition S → Transition T → Prop}

/-- Operators get at no other values. -/
theorem compute (h : C.Correspondence p q G V A B R Q) {r : Except Fault Value}
    (hfault : ∀ f, r = .error f → f.Intrinsic) (hvalue : ∀ v, r = .ok v → v.isError = false) {s : S}
    {t : T} (hst : R s t) :
    C.Holds (fun v w => v = w ∧ V v) (A.compute r s) (B.compute r t) := by
  cases r with
  | ok v => exact C.ok ⟨rfl, h.ofNotError (hvalue v rfl)⟩
  | error f => exact h.fault (hfault f rfl) hst

theorem branch (h : C.Correspondence p q G V A B R Q) (op : Opcode) (taken : Bool)
    {target target' : UInt32} (htarget : G target target') {s : S} {t : T} (hst : R s t) :
    C.Holds R (A.branch p op taken target s) (B.branch q op taken target' t) := by
  refine C.bind (h.pop op hst) ?_
  rintro ⟨v, s⟩ ⟨_, t⟩ ⟨rfl, -, hst⟩
  cases v with
  | bool b =>
    simp only
    split
    · exact h.jump htarget hst
    · exact C.ok hst
  | none | int | float | error =>
    -- a condition of another type
    exact h.fault trivial hst

theorem pushNext (h : C.Correspondence p q G V A B R Q) {v : Value} (hv : V v) {s : S} {t : T}
    (hst : R s t) : C.Holds Q (do return .next (← A.push v s)) (do return .next (← B.push v t)) :=
  C.bind (h.push hv hst) fun _ _ hst => C.ok (h.next hst)

/-- If the operations compare, then so do instructions that differ at most in where they go. -/
theorem step (h : C.Correspondence p q G V A B R Q) {i j : Instruction} (hij : i.Moved G j) {s : S}
    {t : T} (hst : R s t) : C.Holds Q (A.step p i s) (B.step q j t) := by
  cases hij with
  | jump htarget => exact C.bind (h.jump htarget hst) fun _ _ hst => C.ok (h.next hst)
  | jumpIfFalse htarget | jumpIfTrue htarget =>
    exact C.bind (h.branch _ _ htarget hst) fun _ _ hst => C.ok (h.next hst)
  | call htarget => exact C.bind (h.enter _ _ htarget hst) fun _ _ hst => C.ok hst
  | same hi =>
    cases i with
    | nop => exact C.ok (h.next hst)
    | pushInt | pushFloat | pushTrue | pushFalse | pushNone =>
      exact h.pushNext (h.ofNotError rfl) hst
    | pushConst index =>
      simp only [Storage.step, ← h.constant]
      split
      · -- There is no such constant, whatever the state is.
        exact h.fault trivial hst
      · rename_i hv
        exact h.pushNext (h.ofConstant hv) hst
    | pop =>
      refine C.bind (h.pop _ hst) ?_
      rintro ⟨_, s⟩ ⟨_, t⟩ ⟨rfl, -, hst⟩
      exact C.ok (h.next hst)
    | dup =>
      refine C.bind (h.pop _ hst) ?_
      rintro ⟨v, s⟩ ⟨_, t⟩ ⟨rfl, hv, hst⟩
      exact C.bind (h.push hv hst) fun _ _ hst => h.pushNext hv hst
    | swap =>
      refine C.bind (h.pop _ hst) ?_
      rintro ⟨w, s⟩ ⟨_, t⟩ ⟨rfl, hw, hst⟩
      refine C.bind (h.pop _ hst) ?_
      rintro ⟨v, s⟩ ⟨_, t⟩ ⟨rfl, hv, hst⟩
      exact C.bind (h.push hw hst) fun _ _ hst => h.pushNext hv hst
    | load slot =>
      refine C.bind (h.load slot hst) ?_
      rintro v _ ⟨rfl, hv⟩
      exact h.pushNext hv hst
    | store slot => exact C.bind (h.store slot hst) fun _ _ hst => C.ok (h.next hst)
    | unary op =>
      refine C.bind (h.pop _ hst) ?_
      rintro ⟨v, s⟩ ⟨_, t⟩ ⟨rfl, -, hst⟩
      refine C.bind (h.compute (fun _ => op.fault_of_apply) (fun _ => op.isError_of_apply) hst) ?_
      rintro result _ ⟨rfl, hresult⟩
      exact h.pushNext hresult hst
    | binary op =>
      refine C.bind (h.pop _ hst) ?_
      rintro ⟨w, s⟩ ⟨_, t⟩ ⟨rfl, -, hst⟩
      refine C.bind (h.pop _ hst) ?_
      rintro ⟨v, s⟩ ⟨_, t⟩ ⟨rfl, -, hst⟩
      refine C.bind (h.compute (fun _ => op.fault_of_apply) (fun _ => op.isError_of_apply) hst) ?_
      rintro result _ ⟨rfl, hresult⟩
      exact h.pushNext hresult hst
    | jump | jumpIfFalse | jumpIfTrue | call => cases hi
    | ret => exact h.leave hst
    | halt =>
      refine C.bind (h.pop _ hst) ?_
      rintro ⟨v, s⟩ ⟨_, t⟩ ⟨rfl, hv, hst⟩
      exact C.ok (h.halted hv hst)

end Correspondence

end Comparison

/-! ## One program -/

/-- The operations of `A` and `B` agree on states related by `R`: errors are related by `E`, and
    what instructions lead to by `Q`. -/
structure Simulation {ε ε' S T : Type} (p : Program) (A : Storage ε S) (B : Storage ε' T)
    (E : ε → ε' → Prop) (R : S → T → Prop) (Q : Transition S → Transition T → Prop) : Prop where
  fault {s t} {f : Fault} : f.Intrinsic → R s t → E (A.fault f s) (B.fault f t)
  goTo {s t} {pc : Nat} : pc ≤ p.code.size → R s t → R (A.goTo pc s) (B.goTo pc t)
  push {s t} (v : Value) : R s t → Agree E R (A.push v s) (B.push v t)
  pop {s t} (op : Opcode) : R s t →
    Agree E (fun x y => x.1 = y.1 ∧ R x.2 y.2) (A.pop op s) (B.pop op t)
  load {s t} (slot : UInt16) : R s t → Agree E Eq (A.load slot s) (B.load slot t)
  store {s t} (slot : UInt16) : R s t → Agree E R (A.store slot s) (B.store slot t)
  enter {s t} (target : UInt32) (argc : UInt8) (locals : UInt16) : R s t →
    Agree E (fun s' t' => Q (.called target s') (.called target t'))
      (A.enter target argc locals s) (B.enter target argc locals t)
  leave {s t} : R s t → Agree E Q (A.leave s) (B.leave t)
  next {s t} : R s t → Q (.next s) (.next t)
  halted {s t} (v : Value) : R s t → Q (.halted v s) (.halted v t)

namespace Comparison

/-- The results of the operations of `A` and `B` on states related by `R` compare, and those of
    instructions with transitions related by `Q`. -/
structure Simulation {ε ε' S T : Type} (C : Comparison ε ε') (p : Program) (A : Storage ε S)
    (B : Storage ε' T) (R : S → T → Prop) (Q : Transition S → Transition T → Prop) : Prop where
  fault {α β : Type} {P : α → β → Prop} {s t} {f : Fault} : f.Intrinsic → R s t →
    C.Holds P (.error (A.fault f s)) (.error (B.fault f t))
  goTo {s t} {pc : Nat} : pc ≤ p.code.size → R s t → R (A.goTo pc s) (B.goTo pc t)
  push {s t} (v : Value) : R s t → C.Holds R (A.push v s) (B.push v t)
  pop {s t} (op : Opcode) : R s t →
    C.Holds (fun x y => x.1 = y.1 ∧ R x.2 y.2) (A.pop op s) (B.pop op t)
  load {s t} (slot : UInt16) : R s t → C.Holds Eq (A.load slot s) (B.load slot t)
  store {s t} (slot : UInt16) : R s t → C.Holds R (A.store slot s) (B.store slot t)
  enter {s t} (target : UInt32) (argc : UInt8) (locals : UInt16) : R s t →
    C.Holds (fun s' t' => Q (.called target s') (.called target t'))
      (A.enter target argc locals s) (B.enter target argc locals t)
  leave {s t} : R s t → C.Holds Q (A.leave s) (B.leave t)
  next {s t} : R s t → Q (.next s) (.next t)
  halted {s t} (v : Value) : R s t → Q (.halted v s) (.halted v t)

namespace Simulation

variable {ε ε' S T : Type} {C : Comparison ε ε'} {p : Program} {A : Storage ε S}
  {B : Storage ε' T} {R : S → T → Prop} {Q : Transition S → Transition T → Prop}

theorem jump (h : C.Simulation p A B R Q) (target : UInt32) {s : S} {t : T} (hst : R s t) :
    C.Holds R (A.jump p target s) (B.jump p target t) := by
  rw [Storage.jump, Storage.jump]
  split
  · exact h.fault trivial hst
  · rename_i hi
    exact C.ok (h.goTo (Nat.le_of_lt (Program.indexOf?_lt hi)) hst)

/-- Nothing needs to be known of the values if the program is the same. -/
theorem correspondence (h : C.Simulation p A B R Q) :
    C.Correspondence p p Eq (fun _ => True) A B R Q where
  constant _ := rfl
  ofConstant _ := trivial
  ofNotError _ := trivial
  fault := h.fault
  push _ := h.push _
  pop op hst := C.imp (h.pop op hst) fun _ _ ⟨hv, hst⟩ => ⟨hv, trivial, hst⟩
  load slot hst := C.imp (h.load slot hst) fun _ _ hv => ⟨hv, trivial⟩
  store := h.store
  jump htarget hst := htarget ▸ h.jump _ hst
  enter argc locals htarget hst := htarget ▸ h.enter _ argc locals hst
  leave := h.leave
  next := h.next
  halted _ := h.halted _

/-- If the operations compare, then the instructions do. -/
theorem step (h : C.Simulation p A B R Q) (i : Instruction) {s : S} {t : T} (hst : R s t) :
    C.Holds Q (A.step p i s) (B.step p i t) :=
  h.correspondence.step (.refl (fun _ => rfl) i) hst

end Simulation

end Comparison

namespace Simulation

variable {ε ε' S T : Type} {p : Program} {A : Storage ε S} {B : Storage ε' T}
  {E : ε → ε' → Prop} {R : S → T → Prop} {Q : Transition S → Transition T → Prop}

theorem comparison (h : Simulation p A B E R Q) :
    (Comparison.agreement E).Simulation p A B R Q where
  fault hf hst := .error (h.fault hf hst)
  goTo := h.goTo
  push := h.push
  pop := h.pop
  load := h.load
  store := h.store
  enter := h.enter
  leave := h.leave
  next := h.next
  halted := h.halted

/-- If the operations agree, then the instructions do. -/
theorem step (h : Simulation p A B E R Q) (i : Instruction) {s : S} {t : T} (hst : R s t) :
    Agree E Q (A.step p i s) (B.step p i t) :=
  h.comparison.step i hst

end Simulation

end StackMachine
