import StackMachine.Proofs.Machine.Reach

/-!
# Windows

All active calls share one stack of operands and one of local slots. A frame says where the part
of its call begins, its *window*. The machine subtracts these positions and indexes with them
without looking, so they have to be in order.

* `Tiled`: the windows of the operands lie one after the other, and those of the local slots fill
  their stack, beginning with the ones of the top level;
* `Machine.Sound`: the invariant of a run, the limits included;
* `Sound.push`, `Sound.pop`, ...: every operation keeps it;
* `Sound.advance`, `Reached.sound`: so does every instruction, and every run.
-/

namespace StackMachine

/-! ## Parts of arrays -/

/-- Parts that end below `top` are the same in arrays that are the same below `top`. -/
theorem extract_congr {α : Type} {xs ys : Array α} {top i j : Nat} (h : xs.take top = ys.take top)
    (hj : j ≤ top) : xs.extract i j = ys.extract i j := by
  have hcut (zs : Array α) : zs.extract i j = (zs.take top).extract i j := by
    simp [Nat.min_eq_left hj]
  rw [hcut xs, hcut ys, h]

theorem take_congr {α : Type} {xs ys : Array α} {top i : Nat} (h : xs.take top = ys.take top)
    (hi : i ≤ top) : xs.take i = ys.take i :=
  extract_congr h hi

/-- An entry above `i` is none of those below. -/
theorem take_setIfInBounds {α : Type} {xs : Array α} {i k : Nat} {v : α} (h : i ≤ k) :
    (xs.setIfInBounds k v).take i = xs.take i := by
  ext j hj hj'
  · simp
  · simp only [Array.take, Array.size_extract, Array.size_setIfInBounds] at hj
    simp only [Array.take, Array.getElem_extract]
    rw [Array.getElem_setIfInBounds_ne (by omega) (by omega)]

theorem extract_setIfInBounds {α : Type} {xs : Array α} {i k n : Nat} {v : α} :
    (xs.setIfInBounds (i + k) v).extract i (i + n) = (xs.extract i (i + n)).setIfInBounds k v := by
  ext j hj hj'
  · simp
  · simp only [Array.size_extract, Array.size_setIfInBounds] at hj
    rw [Array.getElem_extract, Array.getElem_setIfInBounds (by omega),
      Array.getElem_setIfInBounds (by simpa using hj'), Array.getElem_extract]
    simp

/-- The last `n` entries, the last one first, come first in the reversed list. -/
theorem reverse_extract {α : Type} {xs : Array α} {i n : Nat} (hi : i ≤ xs.size)
    (hn : n ≤ xs.size - i) :
    (xs.extract i xs.size).toList.reverse =
      (xs.extract (xs.size - n) xs.size).toList.reverse ++
        (xs.extract i (xs.size - n)).toList.reverse := by
  rw [← List.reverse_append, ← Array.toList_append, Array.extract_append_extract,
    Nat.min_eq_left (by omega), Nat.max_eq_right (by omega)]

theorem take_pop {α : Type} {xs : Array α} {i : Nat} (h : i < xs.size) :
    xs.pop.take i = xs.take i := by
  rw [← Array.extract_eq_pop rfl, Array.take, Array.extract_extract, Nat.add_zero, Nat.zero_add,
    Nat.min_eq_left (Nat.le_sub_one_of_lt h)]

/-! ## Frames -/

namespace CallStack

variable {s s' : CallStack} {f : Frame}

/-- The frames of the suspended callers, the innermost first. -/
def toList (s : CallStack) : List Frame :=
  s.frames.toList.reverse

@[simp] theorem toList_push : (s.push f).toList = f :: s.toList := by
  simp [toList, push]

@[simp] theorem length_toList : s.toList.length = s.depth := by
  simp [toList, depth]

theorem toList_of_pop? (h : s.pop? = some (f, s')) : s.toList = f :: s'.toList := by
  rw [pop?] at h
  split at h
  · cases h
  · rename_i hf
    cases h
    obtain ⟨ys, hys⟩ := Array.back?_eq_some_iff.1 hf
    simp [toList, hys]

theorem toList_of_pop?_none (h : s.pop? = none) : s.toList = [] := by
  rw [pop?] at h
  split at h
  · rename_i hf
    simp [toList, Array.back?_eq_none_iff.1 hf]
  · cases h

theorem toList_injective (h : s.toList = s'.toList) : s = s' := by
  cases s
  cases s'
  simpa [toList] using h

end CallStack

/-- `Tiled fs height slots`: the frames `fs` of all active calls, the innermost first, share
    `height` operands and `slots` local slots. -/
inductive Tiled : List Frame → (height slots : Nat) → Prop
  | top {height : Nat} : Tiled [Frame.top topLocals] height topLocals
  | call {f : Frame} {fs : List Frame} {height : Nat} : f.stackBase ≤ height →
      Tiled fs f.stackBase f.localsBase → Tiled (f :: fs) height (f.localsBase + f.localsLen)

namespace Tiled

variable {f g : Frame} {fs : List Frame} {height height' slots : Nat}

theorem length_pos (h : Tiled fs height slots) : 0 < fs.length := by
  cases h <;> exact Nat.zero_lt_succ _

theorem stackBase_le (h : Tiled (f :: fs) height slots) : f.stackBase ≤ height := by
  cases h with
  | top => exact Nat.zero_le _
  | call hf _ => exact hf

theorem slots_eq (h : Tiled (f :: fs) height slots) : f.localsBase + f.localsLen = slots := by
  cases h with
  | top => exact Nat.zero_add _
  | call _ _ => rfl

/-- The local slots of the top level are always there. -/
theorem topLocals_le (h : Tiled fs height slots) : topLocals ≤ slots := by
  induction h with
  | top => exact Nat.le_refl _
  | call _ _ ih => exact Nat.le_trans ih (Nat.le_add_right _ _)

/-- The active call may have any number of operands. -/
theorem of_height (h : Tiled (f :: fs) height slots) (hf : f.stackBase ≤ height') :
    Tiled (f :: fs) height' slots := by
  cases h with
  | top => exact .top
  | call _ hfs => exact .call hf hfs

/-- Without the active call, its window is gone. -/
theorem tail (h : Tiled (f :: g :: fs) height slots) :
    Tiled (g :: fs) f.stackBase f.localsBase := by
  cases h with
  | call _ hfs => exact hfs

/-- The windows of the callers lie below that of the active call. -/
theorem bases_le (h : Tiled (f :: fs) height slots) (hg : g ∈ f :: fs) :
    g.stackBase ≤ f.stackBase ∧ g.localsBase ≤ f.localsBase := by
  -- From the active call outwards: the window of a caller ends where that of its callee begins.
  induction fs generalizing f height slots with
  | nil =>
    cases List.mem_singleton.1 hg
    exact ⟨Nat.le_refl _, Nat.le_refl _⟩
  | cons f' fs ih =>
    rcases List.mem_cons.1 hg with rfl | hg
    · exact ⟨Nat.le_refl _, Nat.le_refl _⟩
    · have hbase := h.tail.stackBase_le
      have hslots := h.tail.slots_eq
      have := ih h.tail hg
      omega

end Tiled

namespace Machine

variable {p : Program} {limits : Limits} {m m' : Machine}

/-! ## What the operations do -/

theorem push_ok {v : Value} (hm : m.push limits v = .ok m') :
    m.used < limits.stackLimit ∧ m' = { m with stack := m.stack.push v } := by
  rw [push] at hm
  split at hm <;> cases hm
  rename_i hroom
  exact ⟨Nat.lt_of_not_le hroom, rfl⟩

theorem pop_ok {op : Opcode} {v : Value} (hm : m.pop op = .ok (v, m')) :
    0 < m.depth ∧ m.stack.back? = some v ∧ m' = { m with stack := m.stack.pop } := by
  rw [pop] at hm
  split at hm
  · cases hm
  rename_i hdepth
  split at hm <;> cases hm
  rename_i hv
  exact ⟨Nat.pos_of_ne_zero hdepth, hv, rfl⟩

theorem push_error {v : Value} {f : Fault} (hm : m.push limits v = .error f) :
    limits.stackLimit ≤ m.used ∧ f = .stackOverflow limits.stackLimit := by
  rw [push] at hm
  split at hm <;> cases hm
  rename_i hroom
  exact ⟨hroom, rfl⟩

theorem pop_error {op : Opcode} {f : Fault} (hm : m.pop op = .error f) :
    m.depth = 0 ∧ f = .stackUnderflow op := by
  rw [pop] at hm
  split at hm
  · rename_i hdepth
    cases hm
    exact ⟨hdepth, rfl⟩
  · split at hm <;> cases hm
    rename_i hnone
    have := Array.back?_eq_none_iff.1 hnone
    exact ⟨by simp [depth, this], rfl⟩

theorem localIndex_ok {slot : UInt16} {index : Nat} (h : m.localIndex slot = .ok index) :
    slot.toNat < m.frame.localsLen ∧ index = m.frame.localsBase + slot.toNat := by
  rw [localIndex] at h
  split at h <;> cases h
  rename_i hslot
  exact ⟨hslot, rfl⟩

theorem store_ok {slot : UInt16} (hm : m.store slot = .ok m') :
    ∃ index v m₁, m.localIndex slot = .ok index ∧ m.pop .store = .ok (v, m₁) ∧
      m' = { m₁ with locals := m₁.locals.setIfInBounds index v } := by
  obtain ⟨index, hindex, hm⟩ := bind_eq_ok.1 hm
  obtain ⟨⟨v, m₁⟩, hpop, hm⟩ := bind_eq_ok.1 hm
  cases hm
  exact ⟨index, v, m₁, hindex, hpop, rfl⟩

theorem enter_ok {target : UInt32} {argc : UInt8} {locals : UInt16}
    (hm : m.enter p limits target argc locals = .ok m') :
    m.callers.depth < limits.callDepth ∧ argc.toNat ≤ m.depth ∧
      ∃ entry, p.indexOf? target.toNat = some entry ∧
        m.used + (max argc.toNat locals.toNat - argc.toNat) ≤ limits.stackLimit ∧
        m' = m.openFrame entry argc.toNat (max argc.toNat locals.toNat) := by
  rw [enter] at hm
  split at hm
  · cases hm
  rename_i hdepth
  split at hm
  · cases hm
  rename_i hargc
  split at hm
  · cases hm
  rename_i entry hentry
  simp only at hm
  split at hm <;> cases hm
  rename_i hroom
  exact ⟨Nat.lt_of_not_le hdepth, Nat.le_of_not_lt hargc, entry, hentry,
    Nat.le_of_not_lt hroom, rfl⟩

theorem leave_ok {τ : Transition Machine} (hm : m.leave limits = .ok τ) :
    ∃ v m₁, m.pop .ret = .ok (v, m₁) ∧ ((m₁.callers.pop? = none ∧ τ = .halted v m₁) ∨
      ∃ caller callers m₂, m₁.callers.pop? = some (caller, callers) ∧
        (m₁.closeFrame caller callers).push limits v = .ok m₂ ∧ τ = .returned v m₂) := by
  obtain ⟨⟨v, m₁⟩, hpop, hm⟩ := bind_eq_ok.1 hm
  refine ⟨v, m₁, hpop, ?_⟩
  simp only at hm
  split at hm
  · rename_i hnone
    cases hm
    exact .inl ⟨hnone, rfl⟩
  · rename_i caller callers hsome
    obtain ⟨m₂, hpush, hm⟩ := bind_eq_ok.1 hm
    cases hm
    exact .inr ⟨caller, callers, m₂, hsome, hpush, rfl⟩

/-! ## The invariant -/

/-- The frames of all active calls, the innermost first. -/
def frames (m : Machine) : List Frame :=
  m.frame :: m.callers.toList

/-- The invariant of a run: the windows are in order, nothing exceeds the limits, and the run
    can go on, and resume, only where an instruction is or at the end of the code. -/
structure Sound (p : Program) (limits : Limits) (m : Machine) : Prop where
  tiled : Tiled m.frames m.stack.size m.locals.size
  used_le : m.used ≤ limits.stackLimit
  depth_le : m.callers.depth ≤ limits.callDepth
  pc_le : m.pc ≤ p.code.size
  return_le : ∀ f ∈ m.frames, f.returnIndex ≤ p.code.size

namespace Sound

theorem topLocals_le (h : Sound p limits m) : topLocals ≤ m.locals.size :=
  h.tiled.topLocals_le

theorem stackBase_le (h : Sound p limits m) : m.frame.stackBase ≤ m.stack.size :=
  h.tiled.stackBase_le

theorem locals_eq (h : Sound p limits m) : m.frame.localsBase + m.frame.localsLen = m.locals.size :=
  h.tiled.slots_eq

theorem start : Sound p limits .start where
  tiled := by
    rw [show Machine.start.locals.size = topLocals from Array.size_replicate]
    exact .top
  used_le := by simp [used, Machine.start]
  depth_le := Nat.zero_le _
  pc_le := Nat.zero_le _
  return_le f hf := by
    cases List.mem_singleton.1 hf
    exact Nat.zero_le _

theorem goTo (h : Sound p limits m) {pc : Nat} (hpc : pc ≤ p.code.size) :
    Sound p limits { m with pc } :=
  { h with pc_le := hpc }

theorem push (h : Sound p limits m) {v : Value} (hm : m.push limits v = .ok m') :
    Sound p limits m' := by
  obtain ⟨hroom, rfl⟩ := push_ok hm
  have hbase := h.stackBase_le
  have hslots := h.topLocals_le
  refine { h with tiled := ?_, used_le := ?_ }
  · exact h.tiled.of_height (by simp only [Array.size_push]; omega)
  · simp only [used, Array.size_push] at hroom ⊢
    omega

theorem pop (h : Sound p limits m) {op : Opcode} {v : Value} (hm : m.pop op = .ok (v, m')) :
    Sound p limits m' := by
  obtain ⟨hdepth, -, rfl⟩ := pop_ok hm
  have hused := h.used_le
  simp only [depth] at hdepth
  refine { h with tiled := ?_, used_le := ?_ }
  · exact h.tiled.of_height (by simp only [Array.size_pop]; omega)
  · simp only [used, Array.size_pop] at hused ⊢
    omega

theorem setLocal (h : Sound p limits m) (index : Nat) (v : Value) :
    Sound p limits { m with locals := m.locals.setIfInBounds index v } := by
  refine { h with tiled := ?_, used_le := ?_ }
  · rw [Array.size_setIfInBounds]
    exact h.tiled
  · simpa only [used, Array.size_setIfInBounds] using h.used_le

theorem store (h : Sound p limits m) {slot : UInt16} (hm : m.store slot = .ok m') :
    Sound p limits m' := by
  obtain ⟨index, v, m₁, -, hpop, rfl⟩ := store_ok hm
  exact (h.pop hpop).setLocal index v

theorem openFrame (h : Sound p limits m) (hdepth : m.callers.depth < limits.callDepth)
    {entry argc localsLen : Nat} (hargc : argc ≤ m.depth) (hlen : argc ≤ localsLen)
    (hentry : entry ≤ p.code.size) (hroom : m.used + (localsLen - argc) ≤ limits.stackLimit) :
    Sound p limits (m.openFrame entry argc localsLen) := by
  have hbase := h.stackBase_le
  have hslots := h.topLocals_le
  simp only [depth] at hargc
  have hstack : (m.openFrame entry argc localsLen).stack.size = m.stack.size - argc := by
    simp [Machine.openFrame]
  have hlocals : (m.openFrame entry argc localsLen).locals.size = m.locals.size + localsLen := by
    simp only [Machine.openFrame, Array.size_append, Array.size_extract, Array.size_replicate]
    omega
  refine ⟨?_, ?_, ?_, hentry, ?_⟩
  · -- The window of the callee begins at the arguments, which it takes over.
    rw [hstack, hlocals]
    simp only [Machine.openFrame, frames, CallStack.toList_push]
    exact .call (Nat.le_refl _) (h.tiled.of_height (by simp only; omega))
  · -- Only the slots that no argument fills are new.
    simp only [used, hstack, hlocals] at hroom ⊢
    omega
  · rw [← CallStack.length_toList] at hdepth ⊢
    simp only [Machine.openFrame, CallStack.toList_push, List.length_cons]
    exact hdepth
  · intro f hf
    simp only [Machine.openFrame, frames, CallStack.toList_push] at hf
    rcases List.mem_cons.1 hf with rfl | hf
    · exact h.pc_le
    · exact h.return_le f hf

theorem enter (h : Sound p limits m) {target : UInt32} {argc : UInt8} {locals : UInt16}
    (hm : m.enter p limits target argc locals = .ok m') : Sound p limits m' := by
  obtain ⟨hdepth, hargc, entry, hentry, hroom, rfl⟩ := enter_ok hm
  exact h.openFrame hdepth hargc (Nat.le_max_left _ _)
    (Nat.le_of_lt (Program.indexOf?_lt hentry)) hroom

theorem closeFrame (h : Sound p limits m) {caller : Frame} {callers : CallStack}
    (hpop : m.callers.pop? = some (caller, callers)) :
    Sound p limits (m.closeFrame caller callers) := by
  have hframes : m.frames = m.frame :: caller :: callers.toList := by
    rw [frames, CallStack.toList_of_pop? hpop]
  have htiled := h.tiled
  rw [hframes] at htiled
  have hbase := h.stackBase_le
  have hlocals := h.locals_eq
  have hstack : (m.closeFrame caller callers).stack.size = m.frame.stackBase := by
    simp [Machine.closeFrame, hbase]
  have hslots : (m.closeFrame caller callers).locals.size = m.frame.localsBase := by
    simp only [Machine.closeFrame, Array.size_shrink]
    omega
  refine ⟨?_, ?_, ?_, h.return_le _ (hframes ▸ List.mem_cons_self), ?_⟩
  · rw [hstack, hslots]
    exact htiled.tail
  · have := h.used_le
    simp only [used, hstack, hslots] at this ⊢
    omega
  · have := h.depth_le
    rw [← CallStack.length_toList, CallStack.toList_of_pop? hpop] at this
    rw [← CallStack.length_toList]
    exact Nat.le_of_succ_le this
  · exact fun f hf => h.return_le f (hframes ▸ List.mem_cons_of_mem _ hf)

/-- The state after a return, if there is one. -/
theorem leave (h : Sound p limits m) {τ : Transition Machine} (hm : m.leave limits = .ok τ) :
    τ.Related (fun m n => m = n ∧ Sound p limits m) τ := by
  rcases leave_ok hm with ⟨v, m₁, hpop, ⟨-, rfl⟩ | ⟨caller, callers, m₂, hcallers, hpush, rfl⟩⟩
  · exact .halted ⟨rfl, h.pop hpop⟩
  · exact .returned ⟨rfl, ((h.pop hpop).closeFrame hcallers).push hpush⟩

/-- The operations of the machine keep the invariant. -/
theorem simulation (p : Program) (limits : Limits) :
    Simulation p (storage p limits) (storage p limits) Eq (fun m n => m = n ∧ Sound p limits m)
      (Transition.Related fun m n => m = n ∧ Sound p limits m) where
  fault _ _ := rfl
  goTo := fun hpc ⟨hmn, h⟩ => ⟨hmn ▸ rfl, h.goTo hpc⟩
  push := fun _ ⟨hmn, h⟩ => hmn ▸ .refl (fun _ hm => ⟨rfl, h.push hm⟩) fun _ _ => rfl
  pop := fun _ ⟨hmn, h⟩ => hmn ▸ .refl (fun _ hm => ⟨rfl, rfl, h.pop hm⟩) fun _ _ => rfl
  load := fun _ ⟨hmn, _⟩ => hmn ▸ .refl (fun _ _ => rfl) fun _ _ => rfl
  store := fun _ ⟨hmn, h⟩ => hmn ▸ .refl (fun _ hm => ⟨rfl, h.store hm⟩) fun _ _ => rfl
  enter := fun _ _ _ ⟨hmn, h⟩ =>
    hmn ▸ .refl (fun _ hm => .called ⟨rfl, h.enter hm⟩) fun _ _ => rfl
  leave := fun ⟨hmn, h⟩ => hmn ▸ .refl (fun _ hm => h.leave hm) fun _ _ => rfl
  next h := .next h
  halted _ h := .halted h

/-- Every instruction keeps the invariant. -/
theorem advance (h : Sound p limits m) {τ : Transition Machine}
    (hm : Machine.advance p limits m = .ok τ) (hτ : τ.state? = some m') : Sound p limits m' := by
  have hagree := (simulation p limits).advance (fun _ _ h => h.1 ▸ rfl) rfl ⟨rfl, h⟩
  rw [show (storage p limits).advance p m = .ok τ from hm] at hagree
  obtain ⟨_, -, hrel⟩ := hagree.ok_left
  obtain ⟨_, -, -, h'⟩ := hrel.state hτ
  exact h'

end Sound

/-- The invariant holds in every state of a run. -/
theorem Reached.sound {n : Nat} (h : Reached p limits n m) : Sound p limits m := by
  induction h with
  | start => exact .start
  | step _ _ hτ hm' ih => exact ih.advance hτ hm'

end Machine

end StackMachine
