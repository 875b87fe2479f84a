import StackMachine.Proofs.Assembly.Literal
import StackMachine.Proofs.Assembly.Reassembly

/-!
# Constants read back

The text of a value is a literal that denotes the value. It is one word without any of the marks of
assembly texts, so values that are written as constants, one in each line, are the constants of the
program.

* `Value.read?_displayFloat_eq`: the text of a float is not taken for an integer;
* `Value.ReadAs`, `Value.exists_read?_display`: values are read back bit by bit, NaNs as NaNs;
* `Assembly.readLine_constantLine`, `Assembly.exists_readLines_constants`: lines with constants;
* `Assembly.assemble_constantsText`: the program of a list of constants;
* `Assembly.exists_assemble_constants_tooLarge`: a list that is too long.
-/

namespace StackMachine

open Text Outline

/-! ## Values -/

namespace FloatFormat

variable (f : FloatFormat)

theorem point_mem_positional (ds : List Char) (e : ℤ) : '.' ∈ positional ds e := by
  simp only [positional]
  split
  · simp
  split <;> simp

theorem mark_mem_scientific (ds : List Char) (e : ℤ) : 'e' ∈ f.scientific ds e := by
  simp [scientific]

/-- There is a point or an exponent in the text of a finite number. -/
theorem mark_mem_writeMagnitude (x : Binary64) :
    '.' ∈ f.writeMagnitude x ∨ 'e' ∈ f.writeMagnitude x := by
  rw [writeMagnitude]
  split
  · exact .inl (by decide)
  simp only
  split
  · exact .inl (point_mem_positional _ _)
  · exact .inr (f.mark_mem_scientific _ _)

/-- So it is no integer. -/
theorem signed?_eq_none_of_writeMagnitude {x : Binary64} {cs : List Char}
    (h : f.writeMagnitude x ⊆ cs) : signed? cs = none := by
  rcases f.mark_mem_writeMagnitude x with hmark | hmark
  · exact signed?_eq_none (h hmark) rfl (by decide) (by decide)
  · exact signed?_eq_none (h hmark) rfl (by decide) (by decide)

end FloatFormat

namespace Value

/-- `ReadAs v w`: the value `v`, written and read again, may be `w`. -/
structure ReadAs (v w : Value) : Prop where
  identical : v.isNaN = false → v.identical w = true
  nan : v.isNaN = true → w.isNaN = true

theorem ReadAs.refl (v : Value) : v.ReadAs v where
  identical _ := identical_iff.2 rfl
  nan := id

/-- An integer begins with no letter. -/
theorem exists_cons_integerDigits (i : ℤ) :
    ∃ c cs, integerDigits i = c :: cs ∧ c.isAlpha = false := by
  rw [integerDigits]
  split
  · exact ⟨_, _, rfl, rfl⟩
  · obtain ⟨c, cs, hcons⟩ := List.exists_cons_of_ne_nil (digits_ne_nil i.natAbs)
    have hdigit := forall_isDigit_digits i.natAbs
    rw [hcons] at hdigit ⊢
    exact ⟨c, cs, rfl, Assembly.isAlpha_of_isDigit (hdigit c List.mem_cons_self)⟩

theorem read?_eq_float {c : Char} {cs : List Char} (hc : c.isAlpha = false)
    (hsigned : signed? (c :: cs) = Option.none) :
    read? (c :: cs) = (Binary64.read? (c :: cs)).map float := by
  rw [Assembly.read?_of_isAlpha hc, hsigned, Option.map_none, Option.none_or]

/-- The text of a float is read as a float. -/
theorem read?_displayFloat_eq (x : Binary64) :
    read? (displayFloat x).toList = (Binary64.read? (displayFloat x).toList).map float := by
  rw [displayFloat, String.toList_ofList, FloatFormat.write]
  split
  · rfl
  split
  · split <;> rfl
  split
  · exact read?_eq_float rfl
      (displayFormat.signed?_eq_none_of_writeMagnitude (List.subset_cons_self _ _))
  · have hsigned := displayFormat.signed?_eq_none_of_writeMagnitude
      (List.Subset.refl (displayFormat.writeMagnitude x))
    obtain ⟨c, cs, hcons, hc⟩ := displayFormat.exists_cons_writeMagnitude x
    rw [hcons] at hsigned ⊢
    exact read?_eq_float (Assembly.isAlpha_of_isDigit hc) hsigned

theorem read?_display_float (x : Binary64) :
    ∃ w, read? (display (float x)).toList = some w ∧ (float x).ReadAs w := by
  rw [display, read?_displayFloat_eq]
  cases hx : x.isNaN with
  | false =>
    rw [read?_displayFloat hx]
    exact ⟨_, rfl, .refl _⟩
  | true =>
    have htext : displayFloat x = "NaN" := by
      rw [displayFloat, FloatFormat.write, if_pos hx]
      rfl
    have hread : Binary64.read? "NaN".toList = some (Binary64.nan false) := rfl
    rw [htext, hread]
    refine ⟨_, rfl, fun h => ?_, fun _ => by decide⟩
    cases hx.symm.trans h

/-- The brackets of an error are taken away, and its code is left. -/
theorem read?_display_error (code : Int64) :
    read? (display (error code)).toList = some (error code) := by
  have hword := isWord_integerDigits code.toInt
  have hpayload : errorPayload? ("error(".toList ++ (integerDigits code.toInt ++ [')'])) =
      some (integerDigits code.toInt) := by
    have hdrop : ("error(".toList ++ (integerDigits code.toInt ++ [')'])).drop 6 =
        integerDigits code.toInt ++ [')'] := rfl
    rw [errorPayload?, hdrop, List.getLast?_concat, List.dropLast_concat]
    exact if_pos ⟨rfl, rfl⟩
  have htrim : trim (integerDigits code.toInt) = integerDigits code.toInt :=
    trim_of_forall_not_blank fun c hc => isBlank_of_isPlain (hword.isPlain c hc)
  have htext : (display (error code)).toList =
      "error(".toList ++ (integerDigits code.toInt ++ [')']) := by
    simp only [display, decimalInt, String.toList_append, String.toList_ofList, List.append_assoc]
    rfl
  have hne {c : Char} {cs : List Char} (hc : c ≠ 'e') :
      String.ofList ("error(".toList ++ (integerDigits code.toInt ++ [')'])) ≠
        String.ofList (c :: cs) :=
    fun h => hc (List.cons.inj (String.ofList_inj.1 h)).1.symm
  simp only [read?, htext, hpayload, htrim, signed?_integerDigits]
  rw [if_neg (hne (by decide)), if_neg (hne (by decide)), if_neg (hne (by decide))]
  rfl

/-- Values are read back from their texts bit by bit, but for NaNs, which are read as some NaN. -/
theorem exists_read?_display (v : Value) :
    ∃ w, read? v.display.toList = some w ∧ v.ReadAs w := by
  cases v with
  | none => exact ⟨_, rfl, .refl _⟩
  | int n =>
    refine ⟨int n, ?_, .refl _⟩
    have hsigned := signed?_integerDigits n
    obtain ⟨c, cs, hcons, hc⟩ := exists_cons_integerDigits n.toInt
    rw [display, decimalInt, String.toList_ofList]
    rw [hcons] at hsigned ⊢
    rw [Assembly.read?_of_isAlpha hc, hsigned]
    rfl
  | float x => exact read?_display_float x
  | bool b => cases b <;> exact ⟨_, rfl, .refl _⟩
  | error code => exact ⟨_, read?_display_error code, .refl _⟩

/-- The characters of the texts of values: plain characters, and the brackets of errors. -/
def isDisplayed (c : Char) : Bool :=
  isPlain c || c == '(' || c == ')'

theorem forall_isDisplayed_display (v : Value) : ∀ c ∈ v.display.toList, isDisplayed c = true := by
  have hword {cs : List Char} (h : IsWord cs) : ∀ c ∈ cs, isDisplayed c = true := fun c hc => by
    rw [isDisplayed, h.isPlain c hc, Bool.true_or, Bool.true_or]
  cases v with
  | none => exact List.all_eq_true.1 (by decide)
  | int n =>
    rw [display, decimalInt, String.toList_ofList]
    exact hword (isWord_integerDigits _)
  | float x => exact hword (isWord_displayFloat x)
  | bool b => cases b <;> exact List.all_eq_true.1 (by decide)
  | error code =>
    simp only [display, decimalInt, String.toList_append, String.toList_ofList,
      List.forall_mem_append]
    exact ⟨⟨List.all_eq_true.1 (by decide), hword (isWord_integerDigits _)⟩,
      List.all_eq_true.1 (by decide)⟩

theorem isBlank_of_mem_display (v : Value) : ∀ c ∈ v.display.toList, isBlank c = false :=
  fun c hc => by
    have h := v.forall_isDisplayed_display c hc
    simp only [isDisplayed, Bool.or_eq_true, beq_iff_eq] at h
    rcases h with (h | rfl) | rfl
    · exact isBlank_of_isPlain h
    · decide
    · decide

theorem display_ne_nil (v : Value) : v.display.toList ≠ [] := fun h => by
  obtain ⟨w, hw, -⟩ := v.exists_read?_display
  rw [h] at hw
  cases hw

/-- A value takes as many bytes as what it is read back as. -/
theorem ReadAs.length_encodeEntry {v w : Value} (h : v.ReadAs w) :
    (ConstantPool.encodeEntry w).length = (ConstantPool.encodeEntry v).length := by
  cases hv : v.isNaN with
  | false => rw [identical_iff.1 (h.identical hv)]
  | true =>
    have hw := h.nan hv
    cases v with
    | float x =>
      cases w with
      | float y => rfl
      | none | int | bool | error => cases hw
    | none | int | bool | error => cases hv

end Value

/-! ## Programs -/

namespace Assembly

open AssemblyError (Reason)

/-- The line of a value as a constant. -/
def constantLine (v : Value) : String :=
  ".const " ++ v.display

/-- The text of a program with the given constants, which does nothing. -/
def constantsText (vs : List Value) : String :=
  String.join (vs.map fun v => constantLine v ++ "\n") ++ "halt\n"

/-- The lines of such a text. -/
def constantsLines (vs : List Value) : List (List Char) :=
  vs.map (fun v => (constantLine v).toList) ++ ["halt".toList]

/-- The steps of such a program. -/
def constantsSteps (vs : List Value) : List BuildStep :=
  vs.map .constant ++ [.emit .halt]

theorem toList_constantLine (v : Value) :
    (constantLine v).toList = ".const".toList ++ ' ' :: v.display.toList := by
  rw [constantLine, String.toList_append]
  rfl

theorem lines_constantsText (vs : List Value) :
    lines (constantsText vs).toList = constantsLines vs := by
  have htext : (constantsText vs).toList = (constantsLines vs).flatMap (· ++ ['\n']) := by
    rw [constantsText, String.toList_append, String.toList_join, constantsLines,
      List.flatMap_append, List.flatMap_map, List.flatMap_map]
    refine congrArg (· ++ "halt\n".toList) (List.flatMap_congr fun v _ => ?_)
    exact String.toList_append
  rw [htext, lines_flatMap]
  refine List.forall_mem_append.2 ⟨List.forall_mem_map.2 fun v _ => ?_, by decide⟩
  rw [toList_constantLine]
  exact printable_append.2 ⟨by decide, printable_cons.2 ⟨by decide, Listing.printable_display v⟩⟩

/-- No mark stands in the line of a constant. -/
theorem not_mem_constantLine (v : Value) {c : Char} (hc : Value.isDisplayed c = false)
    (hblank : c ≠ ' ') : c ∉ (constantLine v).toList := by
  have hdirective : ∀ d ∈ ".const".toList, Value.isDisplayed d = true :=
    List.all_eq_true.1 (by decide)
  rw [toList_constantLine]
  refine List.not_mem_append (fun hmem => ?_)
    (List.not_mem_cons_of_ne_of_not_mem hblank fun hmem => ?_)
  · cases hc.symm.trans (hdirective c hmem)
  · cases hc.symm.trans (v.forall_isDisplayed_display c hmem)

theorem words_constantLine (v : Value) :
    words (constantLine v).toList = [".const".toList, v.display.toList] := by
  have hdirective : words ".const".toList = [".const".toList] := by decide
  rw [toList_constantLine, words_append_cons (by decide), hdirective,
    words_of_forall_not_blank v.display_ne_nil v.isBlank_of_mem_display, List.singleton_append]

/-- A value in a line is read as a constant, whatever labels are defined before. -/
theorem readLine_constantLine {v w : Value} (h : Value.read? v.display.toList = some w)
    (defined : List String) : readLine defined (constantLine v).toList = .ok [.constant w] := by
  have hsemicolon : ';' ∉ (constantLine v).toList :=
    not_mem_constantLine v rfl (by decide)
  have hcolon : ':' ∉ trim (constantLine v).toList := fun hmem =>
    not_mem_constantLine v rfl (by decide) (mem_of_mem_trim hmem)
  have hliteral : readLiteral v.display.toList = .ok w := by
    rw [readLiteral, h]
  have hstatement : readStatement [".const".toList, v.display.toList] =
      .ok (some (.constant w)) := by
    have hhead : ".const".toList.head? = some '.' := rfl
    rw [readStatement, if_pos hhead, String.ofList_toList, readDirective, if_pos rfl, hliteral]
    rfl
  simp only [readLine, splitLabel, code, cutAt_of_not_mem hsemicolon, cutAt_of_not_mem hcolon,
    defineLabel, words_trim, words_constantLine, hstatement]
  rfl

/-- The lines of values are read as constants, one after the other. -/
theorem exists_readLines_constants (vs : List Value) (number : Nat) :
    ∃ ws numbered, List.Forall₂ Value.ReadAs vs ws ∧
      readLines [] number (constantsLines vs) = .ok numbered ∧
      numbered.map (·.step) = constantsSteps ws := by
  induction vs generalizing number with
  | nil => exact ⟨[], [⟨number, .emit .halt⟩], .nil, rfl, rfl⟩
  | cons v vs ih =>
    obtain ⟨w, hread, hw⟩ := v.exists_read?_display
    obtain ⟨ws, later, hws, hlater, hsteps⟩ := ih (number + 1)
    refine ⟨w :: ws, _, .cons hw hws, readLines_cons (readLine_constantLine hread []) hlater, ?_⟩
    rw [List.map_append, hsteps]
    rfl

section

variable (ws : List Value)

theorem outline_constantsSteps :
    outline (constantsSteps ws) = ws.map (fun _ => Mark.other) ++ [.instruction .halt] := by
  rw [outline, constantsSteps, List.map_append, List.map_map]
  rfl

theorem addedConstants_constantsSteps : addedConstants (constantsSteps ws) = ws := by
  rw [addedConstants, constantsSteps, List.filterMap_append, List.filterMap_map]
  exact (List.append_nil _).trans List.filterMap_some

theorem emittedCode_constantsSteps : emittedCode (constantsSteps ws) = [.halt] := by
  have hconstants (place : String → Nat) :
      (ws.map BuildStep.constant).filterMap (BuildStep.instruction? place) = [] :=
    List.filterMap_eq_nil_iff.2 (List.forall_mem_map.2 fun _ _ => rfl)
  rw [emittedCode, constantsSteps, List.filterMap_append, hconstants]
  rfl

/-- Header and table have 36 bytes, and the code has one. -/
theorem imageSize_constantsSteps :
    imageSize (constantsSteps ws) = (ConstantPool.encode ws).length + 37 := by
  have hrecorded : recorded (outline (constantsSteps ws)) = [] := by
    rw [outline_constantsSteps]
    exact recorded_eq_nil (List.forall_mem_append.2
      ⟨List.forall_mem_map.2 fun _ _ => rfl, by decide⟩)
  have hextent : extent (outline (constantsSteps ws)) = 1 := by
    rw [← codeSize_filterMap_instruction?, ← emittedCode, emittedCode_constantsSteps]
    rfl
  simp only [imageSize, addedConstants_constantsSteps, hrecorded, hextent, List.isEmpty_nil,
    if_true, List.length_nil]
  omega

theorem exists_emission_constantsSteps : ∃ s ∈ constantsSteps ws, s.mark.isInstruction :=
  ⟨.emit .halt, List.mem_append_right _ List.mem_cons_self, rfl⟩

theorem names_constantsSteps : names (outline (constantsSteps ws)) = [] := by
  rw [outline_constantsSteps, names_append, names, List.filterMap_map]
  exact (List.append_nil _).trans (List.filterMap_eq_nil_iff.2 fun _ _ => rfl)

theorem emitTo_not_mem_constantsSteps (i : Instruction) (name : String) :
    .emitTo i name ∉ constantsSteps ws := by
  simp [constantsSteps]

/-- The constants are loaded from the image of the program. -/
theorem exists_load_constantsSteps (hfits : (ConstantPool.encode ws).length + 37 < 2 ^ 32) :
    ∃ p, Program.load (imageOf (constantsSteps ws)) = .ok p ∧ p.constants.toList = ws := by
  have hsteps : Buildable (constantsSteps ws) :=
    { code := exists_emission_constantsSteps ws
      distinct := names_constantsSteps ws ▸ .nil
      bound := fun i name hmem => absurd hmem (emitTo_not_mem_constantsSteps ws i name)
      fits := (imageSize_constantsSteps ws).trans_lt hfits }
  have hversion : chosenVersion (constantsSteps ws) = imageVersion := by
    have hnone : (constantsSteps ws).filterMap BuildStep.version? = [] :=
      List.filterMap_eq_nil_iff.2 (List.forall_mem_append.2
        ⟨List.forall_mem_map.2 fun _ _ => rfl, List.forall_mem_singleton.2 rfl⟩)
    rw [chosenVersion, hnone]
    rfl
  obtain ⟨p, hp, -, hconstants, -⟩ := load_imageOf hsteps (hversion ▸ UInt32.le_refl imageVersion)
  exact ⟨p, hp, hconstants.trans (addedConstants_constantsSteps ws)⟩

end

/-- Values take as many bytes in a pool as what they are read back as. -/
theorem length_encode_of_readAs {vs ws : List Value} (h : List.Forall₂ Value.ReadAs vs ws) :
    (ConstantPool.encode ws).length = (ConstantPool.encode vs).length := by
  rw [ConstantPool.length_encode, ConstantPool.length_encode]
  induction h with
  | nil => rfl
  | cons hv _ ih =>
    rw [List.map_cons, List.map_cons, List.sum_cons, List.sum_cons, hv.length_encodeEntry]
    omega

/-- The text of constants is assembled to the image of what they are read back as, unless that is
    too large. -/
theorem exists_assemble_constantsText_eq (vs : List Value) :
    ∃ ws, List.Forall₂ Value.ReadAs vs ws ∧
      assemble (constantsText vs) =
        if 2 ^ 32 ≤ (ConstantPool.encode vs).length + 37 then
          .error ⟨max 1 (constantsLines vs).length, .build .tooLarge⟩
        else .ok (imageOf (constantsSteps ws)) := by
  obtain ⟨ws, numbered, hws, hread, hsteps⟩ := exists_readLines_constants vs 1
  rw [← lines_constantsText] at hread
  refine ⟨ws, hws, ?_⟩
  rw [assemble_eq hread hsteps (exists_emission_constantsSteps ws)
    (names_constantsSteps ws ▸ .nil)
    fun i name hmem => absurd hmem (emitTo_not_mem_constantsSteps ws i name),
    imageSize_constantsSteps, length_encode_of_readAs hws, lines_constantsText]

/-- Values are assembled to themselves. In a text with a directive for each of the values and the
    instruction `halt`, the constants of the program are these values bit by bit, and only in the
    place of a NaN there may be another NaN.

    The image has 37 bytes besides the pool, and it must have less than `2 ^ 32` in all. So many
    values that this fails are too large to be assembled at all, and that is then the error. -/
theorem assemble_constantsText (vs : List Value) :
    ((ConstantPool.encode vs).length + 37 < 2 ^ 32 →
      ∃ image p, assemble (constantsText vs) = .ok image ∧ Program.load image = .ok p ∧
        List.Forall₂ Value.ReadAs vs p.constants.toList ∧
        ((∀ v ∈ vs, v.isNaN = false) → p.constants.toList = vs)) ∧
    (2 ^ 32 ≤ (ConstantPool.encode vs).length + 37 →
      ∃ line, assemble (constantsText vs) = .error ⟨line, .build .tooLarge⟩) := by
  obtain ⟨ws, hws, hassemble⟩ := exists_assemble_constantsText_eq vs
  rw [hassemble]
  refine ⟨fun hfits => ?_, fun hlarge => ?_⟩
  · obtain ⟨p, hp, hconstants⟩ :=
      exists_load_constantsSteps ws (length_encode_of_readAs hws ▸ hfits)
    rw [if_neg (Nat.not_le.2 hfits)]
    refine ⟨_, p, rfl, hp, hconstants ▸ hws, fun hnumbers => ?_⟩
    have hidentical : List.Forall₂ (fun v w => v.identical w = true) vs ws :=
      List.Forall₂.imp (fun _ _ h => h.2.identical h.1)
        (List.forall₂_and_left _ _ |>.2 ⟨hnumbers, hws⟩)
    rw [hconstants, ConstantPool.forall₂_identical_iff.1 hidentical]
  · rw [if_pos hlarge]
    exact ⟨_, rfl⟩

/-- The integer `1`, the float `1.0` and the error with code `1` are told apart, and so are the two
    zeros. -/
theorem assemble_constantsText_tags :
    constantsText [.int 1, .float ⟨0x3FF0000000000000⟩, .error 1, .float ⟨0⟩,
        .float ⟨0x8000000000000000⟩, .bool true, .none] =
      ".const 1\n.const 1.0\n.const error(1)\n.const 0.0\n.const -0.0\n.const true\n" ++
        ".const none\nhalt\n" ∧
    ∃ image p, assemble (constantsText [.int 1, .float ⟨0x3FF0000000000000⟩, .error 1,
        .float ⟨0⟩, .float ⟨0x8000000000000000⟩, .bool true, .none]) = .ok image ∧
      Program.load image = .ok p ∧
      p.constants.toList = [.int 1, .float ⟨0x3FF0000000000000⟩, .error 1, .float ⟨0⟩,
        .float ⟨0x8000000000000000⟩, .bool true, .none] := by
  obtain ⟨hfits, -⟩ := assemble_constantsText [.int 1, .float ⟨0x3FF0000000000000⟩, .error 1,
    .float ⟨0⟩, .float ⟨0x8000000000000000⟩, .bool true, .none]
  obtain ⟨image, p, himage, hp, -, hconstants⟩ := hfits (by decide)
  exact ⟨by decide +kernel, image, p, himage, hp, hconstants (by decide)⟩

/-- Too many integers are not assembled. Each of them takes nine bytes. -/
theorem exists_assemble_constants_tooLarge {n : Nat} (hlarge : 2 ^ 32 ≤ n * 9 + 41) :
    (∀ v ∈ List.replicate n (Value.int 0), v.isNaN = false) ∧
      ∃ line, assemble (constantsText (List.replicate n (.int 0))) =
        .error ⟨line, .build .tooLarge⟩ := by
  refine ⟨fun v hv => List.eq_of_mem_replicate hv ▸ rfl, ?_⟩
  have hentry : (ConstantPool.encodeEntry (.int 0)).length = 9 := rfl
  have hlen : (ConstantPool.encode (List.replicate n (.int 0))).length = n * 9 + 4 := by
    rw [ConstantPool.length_encode, List.map_replicate, List.sum_replicate_nat, hentry]
  obtain ⟨ws, -, hassemble⟩ := exists_assemble_constantsText_eq (List.replicate n (.int 0))
  rw [hlen, if_pos (by omega)] at hassemble
  exact ⟨_, hassemble⟩

/-- The least such number of integers. -/
theorem assemble_constantsText_zeros :
    (∀ v ∈ List.replicate 477218584 (Value.int 0), v.isNaN = false) ∧
      ∃ line, assemble (constantsText (List.replicate 477218584 (.int 0))) =
        .error ⟨line, .build .tooLarge⟩ :=
  exists_assemble_constants_tooLarge (by decide)

end Assembly

end StackMachine
