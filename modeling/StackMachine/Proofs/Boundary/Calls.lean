import StackMachine.Boundary.Calls
import StackMachine.Proofs.Session

/-!
# Calls from C see sessions

An execution through a handle is one of a new session: neither the handle nor what was called
before, through it or through others, makes a difference. Its value passes through the out slot
unchanged.

* `RawValue.toValue?_eq_none_iff`, `RawValue.unusedZero_ofValue`: which raw values stand for no
  value, and how values are written;
* `Boundary.after`, `Boundary.Live`: the boundary after a history of calls, and the handles that may
  be used then;
* `Boundary.Keeps.perform`, `Boundary.Live.keeps`: a session is kept until it is freed, and it keeps
  the default limits;
* `Boundary.execute_as_new`: what this says of an execution after any history.
-/

namespace StackMachine

namespace Tag

theorem number_lt (t : Tag) : t.number.toNat < 5 := by
  cases t <;> decide

/-- The kinds have all numbers below five. -/
theorem ofNumber?_eq_none_iff_le {b : UInt8} : ofNumber? b = Option.none ↔ 5 ≤ b.toNat := by
  constructor
  · intro h
    have hkinds : ∀ n < 5, ofNumber? (UInt8.ofNat n) ≠ Option.none := by decide
    refine Nat.le_of_not_lt fun hlt => hkinds _ hlt ?_
    rwa [UInt8.ofNat_toNat]
  · intro h
    refine ofNumber?_eq_none_iff.2 fun kind hkind => ?_
    exact Nat.not_lt_of_le h (hkind ▸ kind.number_lt)

end Tag

/-! ## Raw values -/

namespace RawValue

/-- The payload fields that the kind of a raw value has no use for are zero. -/
structure UnusedZero (r : RawValue) : Prop where
  int : r.kind? = some .none ∨ r.kind? = some .float → r.int = 0
  float : r.kind? ≠ some .float → r.float = Binary64.zero false

theorem kind?_ofValue (v : Value) : (ofValue v).kind? = some v.tag := by
  cases v <;> rfl

theorem unusedZero_ofValue (v : Value) : (ofValue v).UnusedZero where
  int h := by
    rw [kind?_ofValue] at h
    cases v with
    | none | float => rfl
    | int | bool | error => simp [Value.tag] at h
  float h := by
    rw [kind?_ofValue] at h
    cases v with
    | float => exact absurd rfl h
    | none | int | bool | error => rfl

/-- A raw value stands for no value if and only if no kind has its tag. The tag is not cut off to
    the byte that the kinds are numbered with. -/
theorem toValue?_eq_none_iff (r : RawValue) : r.toValue? = none ↔ 5 ≤ r.tag.toNat := by
  rw [toValue?, Option.map_eq_none_iff, kind?]
  split
  · rename_i h
    rw [Tag.ofNumber?_eq_none_iff_le, UInt32.toNat_toUInt8, Nat.mod_eq_of_lt h]
  · rename_i h
    exact ⟨fun _ => by omega, fun _ => rfl⟩

end RawValue

namespace Boundary

/-! ## The session of a handle -/

section

variable (b : Boundary) {h : Nat}

theorem session?_some (h : Nat) : b.session? (some h) = b.sessions[h]?.join :=
  rfl

theorem lt_size_of_session? {s : Session} (hs : b.session? (some h) = some s) :
    h < b.sessions.size := by
  rw [session?_some, Option.join_eq_some_iff] at hs
  exact (Array.getElem?_eq_some_iff.1 hs).1

theorem session?_create (hh : h < b.sessions.size) :
    b.create.session? (some h) = b.session? (some h) := by
  rw [session?_some, create, Array.getElem?_push_lt hh, session?_some, Array.getElem?_eq_getElem hh]

theorem session?_create_size : b.create.session? (some b.sessions.size) = some {} := by
  rw [session?_some, create, Array.getElem?_push_size]
  rfl

theorem session?_store_self (hh : h < b.sessions.size) (s : Option Session) :
    (b.store (some h) s).session? (some h) = s := by
  rw [session?_some, store, Array.getElem?_setIfInBounds_self_of_lt hh]
  rfl

theorem session?_store_ne {handle handle' : Handle} (hne : handle ≠ handle') (s : Option Session) :
    (b.store handle s).session? handle' = b.session? handle' := by
  cases handle with
  | none => rfl
  | some i =>
    cases handle' with
    | none => rfl
    | some j =>
      rw [session?_some, store,
        Array.getElem?_setIfInBounds_ne fun hij => hne (congrArg some hij), session?_some]

@[simp] theorem out_store (handle : Handle) (s : Option Session) :
    (b.store handle s).out = b.out := by
  cases handle <;> rfl

end

/-! ## Executions -/

section

variable {b : Boundary} {handle : Handle} {image : Option (List UInt8)}

/-- An image is executed in the session of the handle. -/
theorem outcome_of_session? {s : Session} (hs : b.session? handle = some s) (bytes : List UInt8) :
    b.outcome handle (some bytes) =
      ((s.execute bytes).1, b.store handle (some (s.execute bytes).2)) := by
  simp only [outcome, hs]

/-- Without a session or an image nothing is executed. -/
theorem outcome_of_none (hnone : b.session? handle = none ∨ image = none) :
    b.outcome handle image = ((.error, .error nullArgument), b) := by
  rcases hnone with hs | rfl
  · simp only [outcome, hs]
  · cases hs : b.session? handle <;> simp only [outcome, hs]

variable (b handle image)

theorem out_outcome : (b.outcome handle image).2.out = b.out := by
  cases image with
  | none => rw [outcome_of_none (.inr rfl)]
  | some bytes =>
    cases hs : b.session? handle with
    | none => rw [outcome_of_none (.inl hs)]
    | some s => rw [outcome_of_session? hs, out_store]

/-- The answer is the status, and the value goes to the out slot if that is given. -/
theorem perform_execute (names : Names) (writeOut : Bool) :
    b.perform (.execute names handle image writeOut) =
      (.status (b.outcome handle image).1.1,
        { sessions := (b.outcome handle image).2.sessions
          out := if writeOut then RawValue.ofValue (b.outcome handle image).1.2 else b.out }) := by
  cases writeOut with
  | true => rfl
  | false => rw [← b.out_outcome handle image]; rfl

end

/-! ## Histories -/

/-- No sessions yet, and an out slot with any contents. -/
def start (out : RawValue) : Boundary :=
  { out }

/-- The boundary after a history of calls. -/
def after (b : Boundary) (history : List Call) : Boundary :=
  history.foldl (fun b c => (b.perform c).2) b

/-- After the history, the handle is one that a call was answered with and that was not freed since
    then. -/
def Live (out : RawValue) (history : List Call) (h : Nat) : Prop :=
  ∃ (earlier later : List Call) (names : Names), history = earlier ++ .create names :: later ∧
    (((start out).after earlier).perform (.create names)).1 = .handle h ∧
    ∀ names', .free names' (some h) ∉ later

/-- There is a session with this handle, and its limits are the default ones. -/
def Keeps (b : Boundary) (h : Nat) : Prop :=
  ∃ s, b.session? (some h) = some s ∧ s.limits = {}

theorem keeps_create (b : Boundary) : b.create.Keeps b.sessions.size :=
  ⟨{}, b.session?_create_size, rfl⟩

namespace Keeps

variable {b : Boundary} {h : Nat}

/-- Only one call ends a session, under either of its names. -/
theorem perform (hb : b.Keeps h) (c : Call) (hc : ∀ names, c ≠ .free names (some h)) :
    (b.perform c).2.Keeps h := by
  obtain ⟨s, hs, hlimits⟩ := hb
  have hh := b.lt_size_of_session? hs
  cases c with
  | create names => exact ⟨s, (b.session?_create hh).trans hs, hlimits⟩
  | free names handle =>
    have hne : handle ≠ some h := fun he => hc names (congrArg _ he)
    refine ⟨s, ?_, hlimits⟩
    rw [Boundary.perform, free]
    cases hfreed : b.session? handle with
    | none => exact hs
    | some s' => exact (b.session?_store_ne hne none).trans hs
  | execute names handle image writeOut =>
    rw [perform_execute]
    cases image with
    | none =>
      rw [outcome_of_none (.inr rfl)]
      exact ⟨s, hs, hlimits⟩
    | some bytes =>
      cases hexec : b.session? handle with
      | none =>
        rw [outcome_of_none (.inl hexec)]
        exact ⟨s, hs, hlimits⟩
      | some s' =>
        rw [outcome_of_session? hexec]
        by_cases he : handle = some h
        · subst he
          cases hs.symm.trans hexec
          exact ⟨_, b.session?_store_self hh _,
            ((Session.Call.execute bytes).limits_perform s).trans hlimits⟩
        · exact ⟨s, (b.session?_store_ne he _).trans hs, hlimits⟩

theorem after (hb : b.Keeps h) {calls : List Call}
    (hcalls : ∀ names, .free names (some h) ∉ calls) : (b.after calls).Keeps h := by
  induction calls generalizing b with
  | nil => exact hb
  | cons c calls ih =>
    refine ih (hb.perform c fun names hc => hcalls names ?_) fun names hmem => hcalls names ?_
    · rw [hc]
      exact List.mem_cons_self
    · exact List.mem_cons_of_mem c hmem

/-- A session that has only been executed in answers like a new one. -/
theorem execute_eq {s : Session} (hb : b.Keeps h) (hs : b.session? (some h) = some s)
    (bytes : List UInt8) : (s.execute bytes).1 = (({} : Session).execute bytes).1 := by
  obtain ⟨s', hs', hlimits⟩ := hb
  cases hs.symm.trans hs'
  exact (Session.Call.execute bytes).answer_eq hlimits

end Keeps

theorem Live.keeps {out : RawValue} {history : List Call} {h : Nat} (hlive : Live out history h) :
    ((start out).after history).Keeps h := by
  obtain ⟨earlier, later, names, rfl, hanswer, hlater⟩ := hlive
  rw [after, List.foldl_append, List.foldl_cons]
  refine Keeps.after ?_ hlater
  cases hanswer
  exact keeps_create _

/-- An execution after any history of calls through any handles, each under either of its names.

    Through a live handle, an image has the status and the value that a new session gives it, and
    this value is read from the out slot, if that is given; the sessions of other handles are left
    alone. For a null handle or a null image nothing is executed, and the value is the error with
    the code of null arguments.

    An out slot that is not given keeps its contents. One that is written has zero in each field
    that is not used. And a raw value, written or not, stands for no value if and only if its tag
    is five or more. -/
theorem execute_as_new (out : RawValue) (history : List Call) (names : Names) (handle : Handle)
    (image : Option (List UInt8)) (writeOut : Bool) :
    let b := (start out).after history
    let (answer, b') := b.perform (.execute names handle image writeOut)
    (∀ h bytes, handle = some h → image = some bytes → Live out history h →
      answer = .status (({} : Session).execute bytes).1.1 ∧
        (writeOut = true → b'.out.toValue? = some (({} : Session).execute bytes).1.2) ∧
        ∀ other, handle ≠ other → b'.session? other = b.session? other) ∧
    (handle = none ∨ image = none → answer = .status .error ∧ b'.sessions = b.sessions ∧
      (writeOut = true → b'.out.toValue? = some (.error (-2)))) ∧
    (writeOut = false → b'.out = b.out) ∧
    (writeOut = true → b'.out.UnusedZero) ∧
    ∀ raw : RawValue, raw.toValue? = none ↔ 5 ≤ raw.tag.toNat := by
  intro b
  rw [perform_execute]
  dsimp only
  refine ⟨?_, ?_, fun hw => ?_, fun hw => ?_, RawValue.toValue?_eq_none_iff⟩
  · rintro h bytes rfl rfl hlive
    have hkeeps := hlive.keeps
    obtain ⟨s, hs, -⟩ := id hkeeps
    rw [outcome_of_session? hs, hkeeps.execute_eq hs]
    refine ⟨rfl, fun hw => ?_, fun other hne => b.session?_store_ne hne _⟩
    rw [if_pos hw, RawValue.toValue?_ofValue]
  · intro hnull
    rw [outcome_of_none (hnull.imp_left fun hnone => hnone ▸ rfl)]
    refine ⟨rfl, rfl, fun hw => ?_⟩
    rw [if_pos hw, RawValue.toValue?_ofValue]
    rfl
  · rw [hw, if_neg Bool.false_ne_true]
  · rw [if_pos hw]
    exact RawValue.unusedZero_ofValue _

/-- Two sessions are created, one under each set of names. The first one adds, and is freed after a
    null image for the second one, which has written an error to the out slot. -/
def twoSessions : List Call :=
  [.create .bare, .create .long, .execute .bare (some 0) (some Program.addition.bytes) true,
    .execute .long (some 1) none true, .free .bare (some 0)]

theorem execute_as_new_twoSessions :
    let b := (start { tag := 7 }).after twoSessions
    let (answer, b') :=
      b.perform (.execute .bare (some 1) (some Program.addition.bytes) true)
    answer = .status .ok ∧ b.out.toValue? = some (.error (-2)) ∧
      b'.out.toValue? = some (.int 42) ∧ b'.out.UnusedZero ∧
      (b.perform (.execute .long none (some Program.addition.bytes) false)).1 = .status .error := by
  have hnew : (({} : Session).execute Program.addition.bytes).1 = (.ok, .int 42) := by
    decide +kernel
  have hlive : Live { tag := 7 } twoSessions 1 :=
    ⟨[.create .bare], _, .long, rfl, rfl, by simp⟩
  have hout : ((start { tag := 7 }).after twoSessions).out.toValue? = some (.error (-2)) := by
    decide +kernel
  obtain ⟨hlives, -, -, hzero, -⟩ := execute_as_new { tag := 7 } twoSessions .bare (some 1)
    (some Program.addition.bytes) true
  obtain ⟨-, hnulls, -⟩ := execute_as_new { tag := 7 } twoSessions .long none
    (some Program.addition.bytes) false
  obtain ⟨hstatus, hvalue, -⟩ := hlives 1 _ rfl rfl hlive
  rw [hnew] at hstatus hvalue
  exact ⟨hstatus, hout, hvalue rfl, hzero rfl, (hnulls (.inl rfl)).1⟩

end Boundary

end StackMachine
