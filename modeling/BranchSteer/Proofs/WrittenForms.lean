import BranchSteer.Program.Description
import BranchSteer.Report.Document
import BranchSteer.Proofs.Documents

/-!
Programs and reports are read again from the text that is written for them.

Each record is decoded from the members it was encoded to, and all that is written is a lossless document, so
that its text gives the document back. Numbers that no word can hold are the only ones that are refused.
-/

namespace BranchSteer

namespace Json

@[simp] theorem lossless_ofString (text : String) : (ofString text).Lossless := .string text

@[simp] theorem lossless_ofNat {value : Nat} (fits : value < 0x10000000000000000) :
    (ofNat value).Lossless :=
  .number ⟨fits, by simp [Number.ofNat]⟩

theorem lossless_uint8 (value : UInt8) : (ofNat value.toNat).Lossless :=
  lossless_ofNat (by have := value.toNat_lt; omega)

theorem lossless_list {encode : α → Json} {values : List α}
    (lossless : ∀ value ∈ values, (encode value).Lossless) :
    (Json.array (values.map encode)).Lossless :=
  .array (List.forall_mem_map.mpr lossless)

theorem lossless_ofFields {fields : List (String × Json)}
    (lossless : ∀ field ∈ fields, field.2.Lossless) : (ofFields fields).Lossless :=
  .object (List.forall_mem_map.mpr fun _ _ => rfl) (List.forall_mem_map.mpr lossless)

@[simp] theorem fields?_ofFields (fields : List (String × Json)) :
    (ofFields fields).fields? = some fields := by
  simp only [ofFields, fields?]
  induction fields with
  | nil => rfl
  | cons field rest ih => simp_all [List.mapM_cons]

@[simp] theorem text?_ofString (text : String) : (ofString text).text? = some text := rfl

@[simp] theorem word?_ofNat {value : Nat} (fits : value < 0x10000000000000000) :
    (ofNat value).word? = some value :=
  if_pos fits

@[simp] theorem uint64?_ofNat (value : UInt64) : (ofNat value.toNat).uint64? = some value := by
  simp [uint64?, word?_ofNat value.toNat_lt]

@[simp] theorem uint8?_ofNat (value : UInt8) : (ofNat value.toNat).uint8? = some value := by
  have read : (ofNat value.toNat).natBelow? 256 = some value.toNat := if_pos value.toNat_lt
  simp [uint8?, read]

theorem listOf?_list {decode : Json → Option α} {encode : α → Json} {values : List α}
    (undoes : ∀ value ∈ values, decode (encode value) = some value) :
    listOf? decode (.array (values.map encode)) = some values := by
  simp only [listOf?]
  induction values with
  | nil => rfl
  | cons value rest ih => simp_all [List.mapM_cons]

theorem lt_of_word? {document : Json} {value : Nat} (read : document.word? = some value) :
    value < 0x10000000000000000 := by
  simp only [word?, natBelow?] at read
  split at read
  · split at read
    · simp_all
    · simp at read
  · simp at read

theorem exists_of_required? {fields : List (String × Json)} {name : String} {decode : Json → Option α}
    {value : α} (read : required? fields name decode = some value) :
    ∃ document, decode document = some value := by
  unfold required? at read
  split at read
  · exact ⟨_, read⟩
  · simp at read

theorem exists_of_listOf? {decode : Json → Option α} {document : Json} {values : List α}
    (read : listOf? decode document = some values) :
    ∀ value ∈ values, ∃ item, decode item = some value := by
  cases document with
  | array items =>
      simp only [listOf?] at read
      induction items generalizing values with
      | nil => simp_all
      | cons item rest ih =>
          simp only [List.mapM_cons, bind, Option.bind_eq_some_iff, pure, Option.some.injEq] at read
          obtain ⟨first, decoded, others, decodedToo, rfl⟩ := read
          exact List.forall_mem_cons.mpr ⟨⟨item, decoded⟩, ih decodedToo⟩
  | _ => simp [listOf?] at read

theorem lossless_ofBytes (bytes : List UInt8) : (ofBytes bytes).Lossless :=
  lossless_list fun byte _ => lossless_uint8 byte

theorem lossless_ofInput (input : Option (List UInt8)) : (ofInput input).Lossless := by
  cases input with
  | none => exact .null
  | some bytes => exact lossless_ofBytes bytes

theorem optional?_ofInput (input : Option (List UInt8)) :
    optional? (listOf? uint8?) (ofInput input) = some input := by
  cases input with
  | none => rfl
  | some bytes =>
      have read : listOf? uint8? (ofBytes bytes) = some bytes :=
        listOf?_list fun byte _ => uint8?_ofNat byte
      exact congrArg (Option.map some) read

theorem lt_of_required? {fields : List (String × Json)} {name : String} {value : Nat}
    (read : required? fields name word? = some value) : value < 0x10000000000000000 :=
  have ⟨_, decoded⟩ := exists_of_required? read
  lt_of_word? decoded

theorem forall_lt_of_required? {fields : List (String × Json)} {name : String} {values : List Nat}
    (read : required? fields name (listOf? word?) = some values) :
    ∀ value ∈ values, value < 0x10000000000000000 := by
  intro value member
  obtain ⟨_, list⟩ := exists_of_required? read
  obtain ⟨_, decoded⟩ := exists_of_listOf? list value member
  exact lt_of_word? decoded

end Json

namespace Operation

theorem lossless_toJson (operation : Operation) : operation.toJson.Lossless := by
  refine Json.lossless_ofFields fun field member => ?_
  have words : ∀ value : UInt64, (Json.ofNat value.toNat).Lossless :=
    fun value => Json.lossless_ofNat value.toNat_lt
  cases operation <;> simp only [fields, List.mem_cons, List.not_mem_nil, or_false] at member <;>
    rcases member with rfl | rfl | rfl <;> simp [words]

theorem ofFields?_fields (operation : Operation) : ofFields? operation.fields = some operation := by
  cases operation <;> simp [fields, ofFields?, Json.required?, Json.valuesOf]

theorem isRegular_toJson (operation : Operation) :
    operation.toJson.isRegular nestingLimit = true := by
  cases operation <;> simp [toJson, fields, Json.ofFields, nestingLimit, Json.isRegular,
    Json.membersRegular, Json.ofString, Json.ofNat, Json.Number.isFinite_ofNat]

theorem ofJson?_toJson (operation : Operation) : ofJson? operation.toJson = some operation := by
  rw [ofJson?, if_pos operation.isRegular_toJson]
  simp [toJson, ofFields?_fields]

end Operation

namespace Program

theorem lossless_toJson (program : Program) : program.toJson.Lossless := by
  refine Json.lossless_ofFields ?_
  simp only [List.forall_mem_cons, List.not_mem_nil, false_implies, implies_true, and_true]
  exact ⟨Json.lossless_list fun operation _ => operation.lossless_toJson,
    Json.lossless_ofNat program.inputAddress.toNat_lt,
    Json.lossless_list fun byte _ => Json.lossless_uint8 byte,
    Json.lossless_ofNat program.memorySize.toNat_lt⟩

theorem ofJson?_toJson (program : Program) : ofJson? program.toJson = some program := by
  have operations : Json.listOf? Operation.ofJson?
      (.array (program.operations.toList.map Operation.toJson)) = some program.operations.toList :=
    Json.listOf?_list fun operation _ => operation.ofJson?_toJson
  have input : Json.listOf? Json.uint8? (.array (program.input.map fun byte => .ofNat byte.toNat)) =
      some program.input :=
    Json.listOf?_list fun byte _ => Json.uint8?_ofNat byte
  simp [ofJson?, toJson, Json.required?, Json.defaulted?, Json.valuesOf, operations, input]

end Program

section Reports

variable {document : Json}

namespace PhaseSummary

def numbers (summary : PhaseSummary) : List Nat :=
  [summary.phase, summary.instructions, summary.checkpoints, summary.branches,
    summary.dependentBranches, summary.resolved, summary.bypassed, summary.rollbacks]

variable {summary : PhaseSummary}

theorem lossless_toJson (words : ∀ number ∈ summary.numbers, number < 0x10000000000000000) :
    summary.toJson.Lossless := by
  simp only [numbers, List.forall_mem_cons, List.not_mem_nil, false_implies, implies_true,
    and_true] at words
  refine Json.lossless_ofFields ?_
  simp [words]

theorem ofJson?_toJson (words : ∀ number ∈ summary.numbers, number < 0x10000000000000000) :
    ofJson? summary.toJson = some summary := by
  simp only [numbers, List.forall_mem_cons, List.not_mem_nil, false_implies, implies_true,
    and_true] at words
  simp [ofJson?, toJson, Json.required?, Json.valuesOf, words]

theorem words_of_ofJson? (read : ofJson? document = some summary) :
    ∀ number ∈ summary.numbers, number < 0x10000000000000000 := by
  simp only [ofJson?, bind, Option.bind_eq_some_iff, pure, Option.some.injEq] at read
  obtain ⟨fields, _, _, phase, _, instructions, _, checkpoints, _, branches, _, dependent, _,
    resolved, _, bypassed, _, rollbacks, rfl⟩ := read
  simp [numbers, Json.lt_of_required? phase, Json.lt_of_required? instructions,
    Json.lt_of_required? checkpoints, Json.lt_of_required? branches, Json.lt_of_required? dependent,
    Json.lt_of_required? resolved, Json.lt_of_required? bypassed, Json.lt_of_required? rollbacks]

end PhaseSummary

namespace BranchSummary

def numbers (branch : BranchSummary) : List Nat :=
  [branch.phase, branch.address, branch.position] ++ branch.inputDependencies ++
    branch.otherDependencies

variable {branch : BranchSummary}

theorem lossless_toJson (words : ∀ number ∈ branch.numbers, number < 0x10000000000000000) :
    branch.toJson.Lossless := by
  simp only [numbers, List.forall_mem_append, List.forall_mem_cons, List.not_mem_nil, false_implies,
    implies_true, and_true] at words
  obtain ⟨⟨⟨phase, address, position⟩, inputs⟩, others⟩ := words
  refine Json.lossless_ofFields ?_
  simp only [List.forall_mem_cons, List.not_mem_nil, false_implies, implies_true, and_true]
  exact ⟨Json.lossless_ofNat phase, Json.lossless_ofNat address, Json.lossless_ofNat position,
    .bool _, .bool _, .bool _,
    Json.lossless_list fun value member => Json.lossless_ofNat (inputs value member),
    Json.lossless_list fun value member => Json.lossless_ofNat (others value member),
    Json.lossless_ofInput _, Json.lossless_ofInput _⟩

theorem ofJson?_toJson (words : ∀ number ∈ branch.numbers, number < 0x10000000000000000) :
    ofJson? branch.toJson = some branch := by
  simp only [numbers, List.forall_mem_append, List.forall_mem_cons, List.not_mem_nil, false_implies,
    implies_true, and_true] at words
  obtain ⟨⟨⟨phase, address, position⟩, inputs⟩, others⟩ := words
  have addresses : ∀ values : List Nat, (∀ value ∈ values, value < 0x10000000000000000) →
      Json.listOf? Json.word? (Json.ofList .ofNat values) = some values :=
    fun values small => Json.listOf?_list fun value member => Json.word?_ofNat (small value member)
  simp [ofJson?, toJson, Json.required?, Json.defaulted?, Json.valuesOf, phase, address, position,
    Json.bool?, addresses _ inputs, addresses _ others, Json.optional?_ofInput]

theorem words_of_ofJson? (read : ofJson? document = some branch) :
    ∀ number ∈ branch.numbers, number < 0x10000000000000000 := by
  simp only [ofJson?, bind, Option.bind_eq_some_iff, pure, Option.some.injEq] at read
  obtain ⟨fields, _, _, phase, _, address, _, position, _, _, _, _, _, _, _, inputs, _, others, _, _,
    _, _, rfl⟩ := read
  simp only [numbers, List.forall_mem_append, List.forall_mem_cons, List.not_mem_nil, false_implies,
    implies_true, and_true]
  exact ⟨⟨⟨Json.lt_of_required? phase, Json.lt_of_required? address, Json.lt_of_required? position⟩,
    Json.forall_lt_of_required? inputs⟩, Json.forall_lt_of_required? others⟩

end BranchSummary

namespace Report

def numbers (report : Report) : List Nat :=
  report.phases.flatMap PhaseSummary.numbers ++ report.branches.flatMap BranchSummary.numbers ++
    [report.rollbacks]

variable {report : Report}

theorem forall_numbers : (∀ number ∈ report.numbers, number < 0x10000000000000000) ↔
    (∀ summary ∈ report.phases, ∀ number ∈ summary.numbers, number < 0x10000000000000000) ∧
    (∀ branch ∈ report.branches, ∀ number ∈ branch.numbers, number < 0x10000000000000000) ∧
    report.rollbacks < 0x10000000000000000 := by
  simp only [numbers, List.forall_mem_append, List.forall_mem_flatMap, List.forall_mem_singleton,
    and_assoc]

theorem lossless_toJson (words : ∀ number ∈ report.numbers, number < 0x10000000000000000) :
    report.toJson.Lossless := by
  obtain ⟨phases, branches, rollbacks⟩ := forall_numbers.mp words
  refine Json.lossless_ofFields ?_
  simp only [List.forall_mem_cons, List.not_mem_nil, false_implies, implies_true, and_true]
  exact ⟨Json.lossless_list fun summary member => PhaseSummary.lossless_toJson (phases summary member),
    Json.lossless_list fun branch member => BranchSummary.lossless_toJson (branches branch member),
    Json.lossless_ofNat rollbacks, .bool _⟩

theorem ofJson?_toJson (words : ∀ number ∈ report.numbers, number < 0x10000000000000000) :
    ofJson? report.toJson = some report := by
  obtain ⟨phases, branches, rollbacks⟩ := forall_numbers.mp words
  have summaries : Json.listOf? PhaseSummary.ofJson? (Json.ofList PhaseSummary.toJson report.phases) =
      some report.phases :=
    Json.listOf?_list fun summary member => PhaseSummary.ofJson?_toJson (phases summary member)
  have records : Json.listOf? BranchSummary.ofJson?
      (Json.ofList BranchSummary.toJson report.branches) = some report.branches :=
    Json.listOf?_list fun branch member => BranchSummary.ofJson?_toJson (branches branch member)
  simp [ofJson?, toJson, Json.required?, Json.valuesOf, Json.bool?, summaries, records, rollbacks]

theorem words_of_ofJson? (read : ofJson? document = some report) :
    ∀ number ∈ report.numbers, number < 0x10000000000000000 := by
  simp only [ofJson?, bind, Option.bind_eq_some_iff, pure, Option.some.injEq] at read
  obtain ⟨fields, _, _, phases, _, branches, _, rollbacks, _, _, rfl⟩ := read
  refine forall_numbers.mpr ⟨fun summary member => ?_, fun branch member => ?_,
    Json.lt_of_required? rollbacks⟩
  · obtain ⟨_, list⟩ := Json.exists_of_required? phases
    obtain ⟨_, decoded⟩ := Json.exists_of_listOf? list summary member
    exact PhaseSummary.words_of_ofJson? decoded
  · obtain ⟨_, list⟩ := Json.exists_of_required? branches
    obtain ⟨_, decoded⟩ := Json.exists_of_listOf? list branch member
    exact BranchSummary.words_of_ofJson? decoded

end Report

end Reports

/-- Nothing is lost in the written forms. A program is read again from either form of its description. A
report is read again from the text that shows it as a document, if all of its numbers are words as they are
in a run, and no other report is ever read. -/
theorem parse?_written (program : Program) (report : Report) :
    Program.parse? program.toJson.compact = some program ∧
    Program.parse? program.toJson.pretty = some program ∧
    (Report.parse? (report.rendered true) = some report ↔
      ∀ number ∈ report.numbers, number < 0x10000000000000000) := by
  refine ⟨?_, ?_, fun read => ?_, fun words => ?_⟩
  · simp [Program.parse?, program.lossless_toJson.parse?_compact, program.ofJson?_toJson]
  · simp [Program.parse?, program.lossless_toJson.parse?_pretty, program.ofJson?_toJson]
  · obtain ⟨document, _, decoded⟩ := Option.bind_eq_some_iff.mp read
    exact Report.words_of_ofJson? decoded
  · simp [Report.parse?, Report.rendered, (Report.lossless_toJson words).parse?_pretty,
      Report.ofJson?_toJson words]

end BranchSteer
