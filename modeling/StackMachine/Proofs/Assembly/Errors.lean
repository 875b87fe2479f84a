import StackMachine.Proofs.Assembly.Elements

/-!
# Wrong lines

What is wrong with a line of an assembly text depends on the labels of the lines before it and on
nothing else. It is said here of the elements of the line, with nothing of how they are read, and
the first line with something wrong is where reading a text ends.

* `WrongOperands`, `WrongStatement`: what may be wrong with a statement;
* `Wrong`, `WrongAt`: what may be wrong with a line;
* `readLine_eq_error_iff`: reading a line fails exactly if it is wrong;
* `readLines_of_wrongAt`, `exists_readLines_of_right`: reading a text fails at the first wrong line.
-/

namespace StackMachine

open Text

namespace Assembly

open AssemblyError (Reason)

/-! ## Statements -/

/-- The text is not the operand of an instruction with one operand that is not a label. -/
def Unreadable : Opcode → (text : List Char) → Prop
  | .pushInt, text => signed? text = none
  | .pushFloat, text => Binary64.read? text = none
  | .pushConst, text => unsigned? UInt32.size text = none
  | .load, text => unsigned? UInt16.size text = none
  | .store, text => unsigned? UInt16.size text = none
  | _, _ => False

/-- What is wrong with the operands of an instruction, their number being right. In a call the
    label is looked at last. -/
inductive WrongOperands : Opcode → (args : List (List Char)) → Reason → Prop
  | number {op : Opcode} {text : List Char} (h : Unreadable op text) :
    WrongOperands op [text] (.invalidOperand (String.ofList text))
  | label {op : Opcode} {name : List Char} (hop : op = .jump ∨ op = .jumpIfFalse ∨ op = .jumpIfTrue)
    (h : isLabel name = false) : WrongOperands op [name] (.invalidLabel (String.ofList name))
  | argc {name argc locals : List Char} (h : unsigned? UInt8.size argc = none) :
    WrongOperands .call [name, argc, locals] (.invalidOperand (String.ofList argc))
  | locals {name argc locals : List Char} (hargc : unsigned? UInt8.size argc ≠ none)
    (h : unsigned? UInt16.size locals = none) :
    WrongOperands .call [name, argc, locals] (.invalidOperand (String.ofList locals))
  | callee {name argc locals : List Char} (hargc : unsigned? UInt8.size argc ≠ none)
    (hlocals : unsigned? UInt16.size locals ≠ none) (h : isLabel name = false) :
    WrongOperands .call [name, argc, locals] (.invalidLabel (String.ofList name))

/-- What is wrong with a directive or an instruction. -/
inductive WrongStatement : (head : List Char) → (args : List (List Char)) → Reason → Prop
  | directive {head : List Char} {args : List (List Char)} (hhead : head.head? = some '.')
    (hconst : String.ofList head ≠ ".const") (hline : String.ofList head ≠ ".line") :
    WrongStatement head args (.unknownDirective (String.ofList head))
  | directiveCount {head : List Char} {args : List (List Char)}
    (hhead : String.ofList head = ".const" ∨ String.ofList head = ".line")
    (h : args.length ≠ 1) :
    WrongStatement head args (.operandCount (String.ofList head) 1 args.length)
  | literal {head text : List Char} (hhead : String.ofList head = ".const")
    (h : Value.read? text = none) :
    WrongStatement head [text] (.invalidLiteral (String.ofList text))
  | line {head text : List Char} (hhead : String.ofList head = ".line")
    (h : unsigned? UInt32.size text = none) :
    WrongStatement head [text] (.invalidOperand (String.ofList text))
  | mnemonic {head : List Char} {args : List (List Char)} (hhead : head.head? ≠ some '.')
    (h : ∀ op : Opcode, op.mnemonic ≠ String.ofList head) :
    WrongStatement head args (.unknownMnemonic (String.ofList head))
  | operandCount {head : List Char} {args : List (List Char)} {op : Opcode}
    (hop : op.mnemonic = String.ofList head) (h : args.length ≠ op.operandCount) :
    WrongStatement head args (.operandCount op.mnemonic op.operandCount args.length)
  | operands {head : List Char} {args : List (List Char)} {op : Opcode} {reason : Reason}
    (hop : op.mnemonic = String.ofList head) (h : WrongOperands op args reason) :
    WrongStatement head args reason

variable {reason : Reason}

theorem map_eq_error_iff {ε α β : Type} {f : α → β} {x : Except ε α} {e : ε} :
    x.map f = .error e ↔ x = .error e := by
  cases x <;> simp [Except.map]

theorem readOperand_eq_error_iff {α : Type} {reader? : List Char → Option α} {text : List Char} :
    readOperand reader? text = .error reason ↔
      reader? text = none ∧ reason = .invalidOperand (String.ofList text) := by
  rw [readOperand]
  cases reader? text <;> simp [eq_comm]

theorem readReference_eq_error_iff {i : Instruction} {name : List Char} :
    readReference i name = .error reason ↔
      isLabel name = false ∧ reason = .invalidLabel (String.ofList name) := by
  rw [readReference]
  split <;> simp [*, eq_comm]

theorem WrongOperands.length_eq {op : Opcode} {args : List (List Char)}
    (h : WrongOperands op args reason) : args.length = op.operandCount := by
  cases h with
  | number h => cases op <;> first | rfl | exact h.elim
  | label hop => rcases hop with rfl | rfl | rfl <;> rfl
  | argc | locals | callee => rfl

theorem readOperands_eq_error_iff {op : Opcode} {args : List (List Char)}
    (hcount : args.length = op.operandCount) :
    readOperands op args = .error reason ↔ WrongOperands op args reason := by
  constructor
  · intro h
    unfold readOperands at h
    split at h
    case h_1 | h_2 | h_3 | h_4 | h_5 =>
      obtain ⟨hnone, rfl⟩ := readOperand_eq_error_iff.1 (map_eq_error_iff.1 h)
      exact .number hnone
    case h_6 | h_7 | h_8 =>
      obtain ⟨hlabel, rfl⟩ := readReference_eq_error_iff.1 h
      exact .label (by simp) hlabel
    case h_9 =>
      split at h
      · rename_i hargc
        cases h
        obtain ⟨hnone, rfl⟩ := readOperand_eq_error_iff.1 hargc
        exact .argc hnone
      rename_i hargc
      have hargc := Option.ne_none_iff_exists'.2 ⟨_, readOperand_eq_ok_iff.1 hargc⟩
      split at h
      · rename_i hlocals
        cases h
        obtain ⟨hnone, rfl⟩ := readOperand_eq_error_iff.1 hlocals
        exact .locals hargc hnone
      rename_i hlocals
      have hlocals := Option.ne_none_iff_exists'.2 ⟨_, readOperand_eq_ok_iff.1 hlocals⟩
      obtain ⟨hlabel, rfl⟩ := readReference_eq_error_iff.1 h
      exact .callee hargc hlocals hlabel
    case h_10 =>
      split at h
      · cases h
      rename_i hsimple
      -- the number of operands being right, one of the cases above applies
      cases op <;> cases hsimple <;> simp_all [Opcode.operandCount, Opcode.operandSize,
        List.length_eq_one_iff, List.length_eq_three]
  · intro h
    cases h with
    | number h =>
      cases op <;>
        first
        | exact map_eq_error_iff.2 (readOperand_eq_error_iff.2 ⟨h, rfl⟩)
        | exact h.elim
    | label hop h =>
      rcases hop with rfl | rfl | rfl <;> exact readReference_eq_error_iff.2 ⟨h, rfl⟩
    | argc h => simp only [readOperands, readOperand, h]
    | locals hargc h =>
      obtain ⟨n, hn⟩ := Option.ne_none_iff_exists'.1 hargc
      simp only [readOperands, readOperand, hn, h]
    | callee hargc hlocals h =>
      obtain ⟨n, hn⟩ := Option.ne_none_iff_exists'.1 hargc
      obtain ⟨k, hk⟩ := Option.ne_none_iff_exists'.1 hlocals
      simp only [readOperands, readOperand, hn, hk]
      exact readReference_eq_error_iff.2 ⟨h, rfl⟩

theorem readInstruction_eq_error_iff {op : Opcode} {args : List (List Char)} :
    readInstruction op args = .error reason ↔
      (args.length ≠ op.operandCount ∧
        reason = .operandCount op.mnemonic op.operandCount args.length) ∨
      WrongOperands op args reason := by
  rw [readInstruction]
  split
  · rename_i hcount
    simp [readOperands_eq_error_iff hcount, hcount]
  · rename_i hcount
    have hnot : ¬ WrongOperands op args reason := fun h => hcount h.length_eq
    simp [hcount, hnot, eq_comm]

theorem ofMnemonic?_eq_none_iff {name : String} :
    Opcode.ofMnemonic? name = none ↔ ∀ op : Opcode, op.mnemonic ≠ name := by
  simp [Opcode.ofMnemonic?, Opcode.mem_all]

theorem ofMnemonic?_eq_some_iff {name : String} {op : Opcode} :
    Opcode.ofMnemonic? name = some op ↔ op.mnemonic = name := by
  constructor
  · intro h
    simpa using List.find?_some h
  · rintro rfl
    exact op.ofMnemonic?_mnemonic

theorem readLiteral_eq_error_iff {text : List Char} :
    readLiteral text = .error reason ↔
      Value.read? text = none ∧ reason = .invalidLiteral (String.ofList text) := by
  rw [readLiteral]
  cases Value.read? text <;> simp [eq_comm]

/-- No instruction is written like a directive. -/
theorem head?_of_mnemonic {op : Opcode} {head : List Char} (h : op.mnemonic = String.ofList head) :
    head.head? ≠ some '.' := by
  have hall : ∀ op ∈ Opcode.all, op.mnemonic.toList.head? ≠ some '.' := by decide
  have := hall op op.mem_all
  rwa [h, String.toList_ofList] at this

variable {head : List Char} {args : List (List Char)}

/-- The two directives that there are. -/
theorem head?_of_directive (h : String.ofList head = ".const" ∨ String.ofList head = ".line") :
    head.head? = some '.' := by
  rw [← String.toList_ofList (l := head)]
  rcases h with h | h <;> rw [h] <;> rfl

theorem wrongStatement_of_readDirective (hhead : head.head? = some '.')
    (h : readDirective (String.ofList head) args = .error reason) :
    WrongStatement head args reason := by
  have hcount (hargs : ∀ text, args = [text] → False) : args.length ≠ 1 := fun hlen =>
    have ⟨text, htext⟩ := List.length_eq_one_iff.1 hlen
    hargs text htext
  unfold readDirective at h
  split at h
  · rename_i hconst
    split at h
    · obtain ⟨hnone, rfl⟩ := readLiteral_eq_error_iff.1 (map_eq_error_iff.1 h)
      exact .literal hconst hnone
    · rename_i hargs
      cases h
      exact .directiveCount (.inl hconst) (hcount hargs)
  rename_i hconst
  split at h
  · rename_i hline
    split at h
    · obtain ⟨hnone, rfl⟩ := readOperand_eq_error_iff.1 (map_eq_error_iff.1 h)
      exact .line hline hnone
    · rename_i hargs
      cases h
      exact .directiveCount (.inr hline) (hcount hargs)
  · rename_i hline
    cases h
    exact .directive hhead hconst hline

theorem wrongStatement_of_readStatement (h : readStatement (head :: args) = .error reason) :
    WrongStatement head args reason := by
  simp only [readStatement] at h
  split at h
  · rename_i hhead
    exact wrongStatement_of_readDirective hhead (map_eq_error_iff.1 h)
  rename_i hhead
  split at h
  · rename_i hop
    cases h
    exact .mnemonic hhead (ofMnemonic?_eq_none_iff.1 hop)
  · rename_i hop
    have hop := ofMnemonic?_eq_some_iff.1 hop
    rcases readInstruction_eq_error_iff.1 (map_eq_error_iff.1 h) with ⟨hcount, rfl⟩ | hoperands
    · exact .operandCount hop hcount
    · exact .operands hop hoperands

theorem readStatement_of_directive (hhead : head.head? = some '.')
    (h : readDirective (String.ofList head) args = .error reason) :
    readStatement (head :: args) = .error reason := by
  simp only [readStatement, if_pos hhead, h]
  rfl

theorem readStatement_of_mnemonic {op : Opcode} (hop : op.mnemonic = String.ofList head)
    (h : readInstruction op args = .error reason) :
    readStatement (head :: args) = .error reason := by
  simp only [readStatement, if_neg (head?_of_mnemonic hop), ofMnemonic?_eq_some_iff.2 hop, h]
  rfl

theorem WrongStatement.readStatement_eq (h : WrongStatement head args reason) :
    readStatement (head :: args) = .error reason := by
  cases h with
  | directive hhead hconst hline =>
    refine readStatement_of_directive hhead ?_
    simp only [readDirective, if_neg hconst, if_neg hline]
  | directiveCount hname hlen =>
    refine readStatement_of_directive (head?_of_directive hname) ?_
    unfold readDirective
    rcases hname with hname | hname <;> rw [hname] <;>
      rcases args with _ | ⟨text, _ | ⟨_, _⟩⟩ <;> first | rfl | exact absurd rfl hlen
  | literal hname hnone =>
    refine readStatement_of_directive (head?_of_directive (.inl hname)) ?_
    rw [readDirective, if_pos hname]
    exact map_eq_error_iff.2 (readLiteral_eq_error_iff.2 ⟨hnone, rfl⟩)
  | line hname hnone =>
    refine readStatement_of_directive (head?_of_directive (.inr hname)) ?_
    rw [readDirective, if_neg (hname ▸ by decide), if_pos hname]
    exact map_eq_error_iff.2 (readOperand_eq_error_iff.2 ⟨hnone, rfl⟩)
  | mnemonic hhead h => simp only [readStatement, if_neg hhead, ofMnemonic?_eq_none_iff.2 h]
  | operandCount hop h =>
    exact readStatement_of_mnemonic hop (readInstruction_eq_error_iff.2 (.inl ⟨h, rfl⟩))
  | operands hop h =>
    exact readStatement_of_mnemonic hop (readInstruction_eq_error_iff.2 (.inr h))

theorem readStatement_eq_error_iff :
    readStatement (head :: args) = .error reason ↔ WrongStatement head args reason :=
  ⟨wrongStatement_of_readStatement, fun h => h.readStatement_eq⟩

/-! ## Lines -/

/-- What is wrong with the elements of a line, `earlier` being those of the lines before it. -/
inductive Wrong (earlier : List Element) : List Element → Reason → Prop
  | label {name : List Char} {rest : List Element} (h : isLabel name = false) :
    Wrong earlier (.label name :: rest) (.invalidLabel (String.ofList name))
  | duplicate {name : List Char} {rest : List Element} (hname : isLabel name = true)
    (h : .label name ∈ earlier) :
    Wrong earlier (.label name :: rest) (.duplicateLabel (String.ofList name))
  | labelled {name head : List Char} {args : List (List Char)} {reason : Reason}
    (hname : isLabel name = true) (hnew : .label name ∉ earlier)
    (h : WrongStatement head args reason) :
    Wrong earlier [.label name, .statement head args] reason
  | statement {head : List Char} {args : List (List Char)} {reason : Reason}
    (h : WrongStatement head args reason) : Wrong earlier [.statement head args] reason

/-- The labels that are known to be defined are those of the elements `earlier`. -/
def Knows (defined : List String) (earlier : List Element) : Prop :=
  ∀ name, String.ofList name ∈ defined ↔ .label name ∈ earlier

variable {defined : List String} {earlier : List Element}

theorem readStatement_words_eq_error_iff {ws : List (List Char)} :
    readStatement ws = .error reason ↔ Wrong earlier (statementOf ws) reason := by
  cases ws with
  | nil => exact iff_of_false nofun nofun
  | cons head args =>
    rw [readStatement_eq_error_iff]
    exact ⟨.statement, fun h => by cases h; assumption⟩

/-- The label of a line is looked at before its statement. -/
theorem wrong_label_iff {name : List Char} {ws : List (List Char)} :
    Wrong earlier (.label name :: statementOf ws) reason ↔
      (isLabel name = false ∧ reason = .invalidLabel (String.ofList name)) ∨
      (isLabel name = true ∧ .label name ∈ earlier ∧
        reason = .duplicateLabel (String.ofList name)) ∨
      (isLabel name = true ∧ .label name ∉ earlier ∧ readStatement ws = .error reason) := by
  constructor
  · intro h
    generalize hws : statementOf ws = rest at h
    cases h with
    | label h => exact .inl ⟨h, rfl⟩
    | duplicate hname h => exact .inr (.inl ⟨hname, h, rfl⟩)
    | labelled hname hnew h =>
      have hwrong : Wrong earlier (statementOf ws) reason := hws ▸ .statement h
      exact .inr (.inr ⟨hname, hnew, readStatement_words_eq_error_iff.2 hwrong⟩)
  · rintro (⟨h, rfl⟩ | ⟨hname, h, rfl⟩ | ⟨hname, hnew, h⟩)
    · exact .label h
    · exact .duplicate hname h
    · cases ws with
      | nil => cases h
      | cons head args => exact .labelled hname hnew (readStatement_eq_error_iff.1 h)

/-- Reading a line fails exactly if it is wrong, and says what is wrong with it. -/
theorem readLine_eq_error_iff (hdefined : Knows defined earlier) {line : List Char} :
    readLine defined line = .error reason ↔ Wrong earlier (lineElements line) reason := by
  rw [readLine, splitLabel, lineElements]
  cases hcut : cutAt ':' (code line) with
  | mk name rest =>
    cases rest with
    | none =>
      rw [← readStatement_words_eq_error_iff]
      simp only [defineLabel]
      cases readStatement (words (code line)) <;> simp
    | some rest =>
      have hdup := hdefined (trim name)
      simp only [wrong_label_iff, ← hdup]
      cases hname : isLabel (trim name) with
      | false => simp [eq_comm]
      | true =>
        by_cases hmem : String.ofList (trim name) ∈ defined
        · simp [defineLabel, hmem, eq_comm]
        · simp [defineLabel, hmem]
          cases readStatement (words rest) <;> simp

/-! ## Labels -/

/-- The label that an element defines. -/
def Element.label? : Element → Option (List Char)
  | label name => some name
  | statement _ _ => none

/-- The label that an instruction refers to. -/
def Element.reference? : Element → Option (List Char)
  | label _ => none
  | statement head args =>
    if (Opcode.ofMnemonic? (String.ofList head)).any Opcode.isBranch then args.head? else none

/-- The labels that elements define. -/
def labels (es : List Element) : List (List Char) :=
  es.filterMap Element.label?

theorem mem_labels {es : List Element} {name : List Char} :
    name ∈ labels es ↔ .label name ∈ es := by
  rw [labels, List.mem_filterMap]
  constructor
  · rintro ⟨e, he, hname⟩
    cases e <;> cases hname
    exact he
  · exact fun h => ⟨_, h, rfl⟩

/-- An instruction that is read refers to a label if its opcode says so. -/
theorem emission_of_readOperands {op : Opcode} {step : BuildStep}
    (h : readOperands op args = .ok step) :
    (op.isBranch = false ∧ ∃ i, step = .emit i) ∨
      (op.isBranch = true ∧ ∃ i name rest, args = name :: rest ∧
        step = .emitTo i (String.ofList name)) := by
  have hreference {i : Instruction} {name : List Char} (h : readReference i name = .ok step) :
      step = .emitTo i (String.ofList name) := by
    rw [readReference] at h
    split at h <;> cases h
    rfl
  unfold readOperands at h
  split at h
  case h_1 | h_2 | h_3 | h_4 | h_5 =>
    obtain ⟨_, -, rfl⟩ := map_eq_ok_iff.1 h
    exact .inl ⟨rfl, _, rfl⟩
  case h_6 | h_7 | h_8 => exact .inr ⟨rfl, _, _, _, rfl, hreference h⟩
  case h_9 =>
    split at h
    · cases h
    split at h
    · cases h
    exact .inr ⟨rfl, _, _, _, rfl, hreference h⟩
  case h_10 =>
    split at h <;> cases h
    rename_i i hsimple
    have hbranch : op.isBranch = false := by
      cases op <;> first | rfl | cases hsimple
    exact .inl ⟨hbranch, i, rfl⟩

/-- What a step defines and refers to, and whether it emits an instruction, is known from the
    element that it was read from. -/
theorem Reads.labels {e : Element} {step : BuildStep} (h : Reads e step) :
    definition? step = e.label?.map String.ofList ∧
      reference? step = e.reference?.map String.ofList := by
  cases h with
  | label name => exact ⟨rfl, rfl⟩
  | const => exact ⟨rfl, rfl⟩
  | line => exact ⟨rfl, rfl⟩
  | instruction hhead hop hread =>
    rw [readInstruction] at hread
    split at hread
    · rw [Element.reference?, hop, Option.any_some]
      rcases emission_of_readOperands hread with
        ⟨hbranch, i, rfl⟩ | ⟨hbranch, i, name, rest, rfl, rfl⟩ <;>
        rw [hbranch] <;> exact ⟨rfl, rfl⟩
    · cases hread

theorem definitions_of_reads {es : List Element} {steps : List BuildStep}
    (h : List.Forall₂ Reads es steps) :
    steps.filterMap definition? = (labels es).map String.ofList := by
  rw [Assembly.labels, List.map_filterMap]
  induction h with
  | nil => rfl
  | cons hread _ ih => rw [List.filterMap_cons, List.filterMap_cons, hread.labels.1, ih]

/-! ## Texts -/

/-- Something is wrong with the line `k` of a text, the elements before the text being `earlier`. -/
def WrongAt (earlier : List Element) (ls : List (List Char)) (k : Nat) (reason : Reason) : Prop :=
  ∃ line, ls[k]? = some line ∧
    Wrong (earlier ++ (ls.take k).flatMap lineElements) (lineElements line) reason

variable {line : List Char} {ls : List (List Char)} {number k : Nat}

@[simp] theorem wrongAt_zero :
    WrongAt earlier (line :: ls) 0 reason ↔ Wrong earlier (lineElements line) reason := by
  simp [WrongAt]

@[simp] theorem wrongAt_succ :
    WrongAt earlier (line :: ls) (k + 1) reason ↔
      WrongAt (earlier ++ lineElements line) ls k reason := by
  simp [WrongAt]

/-- Whether a line is wrong does not depend on the lines after it. -/
theorem WrongAt.of_take {ls' : List (List Char)} (h : WrongAt earlier ls k reason)
    (htake : ls'.take (k + 1) = ls.take (k + 1)) : WrongAt earlier ls' k reason := by
  obtain ⟨line, hline, hwrong⟩ := h
  have hline' : ls'[k]? = some line := by
    rw [← List.getElem?_take_of_lt (Nat.lt_succ_self k), htake,
      List.getElem?_take_of_lt (Nat.lt_succ_self k), hline]
  have htake' : ls'.take k = ls.take k := by
    have := congrArg (List.take k) htake
    simpa [List.take_take] using this
  exact ⟨line, hline', htake' ▸ hwrong⟩

/-- The labels of a line are known after it. -/
theorem Knows.append (h : Knows defined earlier) {es : List Element} {steps : List BuildStep}
    (hreads : List.Forall₂ Reads es steps) :
    Knows (steps.filterMap definition? ++ defined) (earlier ++ es) := by
  intro name
  have hlabels : name ∈ labels es ↔ .label name ∈ es := mem_labels
  rw [definitions_of_reads hreads, List.mem_append, h name, List.mem_append, ← hlabels,
    List.mem_map_of_injective fun _ _ => String.ofList_injective, or_comm]

/-- Reading a text fails at the first wrong line. -/
theorem readLines_of_wrongAt (hdefined : Knows defined earlier)
    (hfirst : ∀ j < k, ∀ reason, ¬ WrongAt earlier ls j reason) (h : WrongAt earlier ls k reason) :
    readLines defined number ls = .error ⟨number + k, reason⟩ := by
  -- the lines that are read become earlier ones, and what is known of labels stays right
  induction ls generalizing defined earlier number k with
  | nil =>
    obtain ⟨_, hline, -⟩ := h
    cases hline
  | cons line ls ih =>
    rw [readLines]
    cases k with
    | zero =>
      rw [(readLine_eq_error_iff hdefined).2 (wrongAt_zero.1 h)]
      rfl
    | succ k =>
      cases hread : readLine defined line with
      | error reason' =>
        have hwrong := (readLine_eq_error_iff hdefined).1 hread
        exact absurd (wrongAt_zero.2 hwrong) (hfirst 0 (Nat.succ_pos k) reason')
      | ok steps =>
        have hknows := hdefined.append (readLine_reads hread)
        have hfirst' : ∀ j < k, ∀ reason, ¬ WrongAt (earlier ++ lineElements line) ls j reason :=
          fun j hj reason h => hfirst (j + 1) (Nat.succ_lt_succ hj) reason (wrongAt_succ.2 h)
        simp only [ih hknows hfirst' (wrongAt_succ.1 h)]
        rw [Nat.add_right_comm, Nat.add_assoc]

/-- If no line is wrong, then reading a text does not fail. -/
theorem exists_readLines_of_right (hdefined : Knows defined earlier)
    (h : ∀ k reason, ¬ WrongAt earlier ls k reason) :
    ∃ numbered, readLines defined number ls = .ok numbered := by
  induction ls generalizing defined earlier number with
  | nil => exact ⟨[], rfl⟩
  | cons line ls ih =>
    cases hread : readLine defined line with
    | error reason =>
      exact absurd (wrongAt_zero.2 ((readLine_eq_error_iff hdefined).1 hread)) (h 0 reason)
    | ok steps =>
      have hknows := hdefined.append (readLine_reads hread)
      obtain ⟨later, hlater⟩ := @ih _ _ (number + 1) hknows fun k reason hwrong =>
        h (k + 1) reason (wrongAt_succ.2 hwrong)
      refine ⟨steps.map (⟨number, ·⟩) ++ later, ?_⟩
      simp only [readLines, hread, hlater]

/-- Nothing that is wrong with a line is found when an image is built. -/
theorem Wrong.ne_build {es : List Element} (h : Wrong earlier es reason) (err : BuildError) :
    reason ≠ .build err := by
  have hstatement {head : List Char} {args : List (List Char)} :
      ¬ WrongStatement head args (.build err) := by
    intro h
    cases h with
    | operands _ h => cases h
  rintro rfl
  cases h with
  | labelled _ _ h | statement h => exact hstatement h

end Assembly

end StackMachine
