import BranchSteer.Json.Document
import BranchSteer.Proofs.Scanning

/-!
A document is read again from either of its written forms. Both spell the same tokens, and the reader turns
the tokens of a document into that document, wherever in another document they stand.
-/

namespace BranchSteer.Json

@[elab_as_elim] theorem induction_parts {motive : Json → Prop} (document : Json)
    (null : motive .null) (bool : ∀ value, motive (.bool value))
    (number : ∀ value, motive (.number value)) (string : ∀ text, motive (.string text))
    (array : ∀ items, (∀ item ∈ items, motive item) → motive (.array items))
    (object : ∀ members, (∀ member ∈ members, motive member.2) → motive (.object members)) :
    motive document :=
  @Json.rec motive (fun items => ∀ item ∈ items, motive item)
    (fun members => ∀ member ∈ members, motive member.2) (fun member => motive member.2)
    null bool number string array object
    (by simp) (fun _ _ first rest => List.forall_mem_cons.mpr ⟨first, rest⟩)
    (by simp) (fun _ _ first rest => List.forall_mem_cons.mpr ⟨first, rest⟩)
    (fun _ _ value => value) document

/-- A document whose strings are text and whose numbers keep all of their digits. -/
inductive Lossless : Json → Prop
  | null : Lossless .null
  | bool (value : Bool) : Lossless (.bool value)
  | number {value : Number} (fits : value.Fits) : Lossless (.number value)
  | string (text : String) : Lossless (.string (some text))
  | array {items : List Json} (item : ∀ item ∈ items, Lossless item) : Lossless (.array items)
  | object {members : List (Option String × Json)} (name : ∀ member ∈ members, member.1.isSome)
      (value : ∀ member ∈ members, Lossless member.2) : Lossless (.object members)

theorem Spells.lineBreak {left right : List Char} {first second : List Token} (depth : Nat)
    (spells : Spells left first) (behind : Spells right second) :
    Spells (left ++ (Json.lineBreak depth ++ right)) (first ++ second) := by
  refine spells.blank '\n' (by decide) ?_
  induction 2 * depth with
  | zero => exact behind
  | succ count ih => exact Spells.nil.blank ' ' (by decide) ih

theorem spells_itemTokens {items : List Json}
    (spelled : ∀ item ∈ items, Spells item.compactCharacters item.tokens) :
    Spells ((itemTokens items).flatMap Token.text) (itemTokens items) := by
  induction items with
  | nil => exact .nil
  | cons item rest ih =>
      obtain ⟨first, others⟩ := List.forall_mem_cons.mp spelled
      cases rest with
      | nil => exact first
      | cons next more =>
          simpa [itemTokens, Token.text, compactCharacters] using
            first.mark ',' rfl (ih others)

theorem spells_memberTokens {members : List (Option String × Json)}
    (named : ∀ member ∈ members, member.1.isSome)
    (spelled : ∀ member ∈ members, Spells member.2.compactCharacters member.2.tokens) :
    Spells ((memberTokens members).flatMap Token.text) (memberTokens members) := by
  induction members with
  | nil => exact .nil
  | cons member rest ih =>
      obtain ⟨name, value⟩ := member
      obtain ⟨text, rfl⟩ := Option.isSome_iff_exists.mp (named _ List.mem_cons_self)
      obtain ⟨first, others⟩ := List.forall_mem_cons.mp spelled
      have alone := (Spells.string text).mark ':' rfl first
      cases rest with
      | nil => exact alone
      | cons next more =>
          have both := alone.mark ',' rfl
            (ih (List.forall_mem_cons.mp named).2 others)
          simpa [memberTokens, Token.text, compactCharacters] using both

theorem Lossless.spells_compact {document : Json} (lossless : document.Lossless) :
    Spells document.compactCharacters document.tokens := by
  induction lossless with
  | null => simpa [compactCharacters, tokens] using Spells.null
  | bool value => simpa [compactCharacters, tokens] using Spells.bool value
  | number fits => simpa [compactCharacters, tokens] using Spells.number fits
  | string text => simpa [compactCharacters, tokens] using Spells.string text
  | array _ spelled =>
      have inner := (spells_itemTokens spelled).mark ']' rfl .nil
      simpa [compactCharacters, tokens, Token.text] using Spells.nil.mark '[' rfl inner
  | object named _ spelled =>
      have inner := (spells_memberTokens named spelled).mark '\x7d' rfl .nil
      simpa [compactCharacters, tokens, Token.text] using
        Spells.nil.mark '\x7b' rfl inner

theorem spells_prettyItems {items : List Json} (depth : Nat)
    (spelled : ∀ item ∈ items, ∀ depth, Spells (item.prettyCharacters depth) item.tokens) :
    Spells (prettyItems depth items) (itemTokens items) := by
  induction items with
  | nil => exact .nil
  | cons item rest ih =>
      obtain ⟨first, others⟩ := List.forall_mem_cons.mp spelled
      have alone := Spells.nil.lineBreak depth (first depth)
      cases rest with
      | nil => exact alone
      | cons next more =>
          simpa [prettyItems, itemTokens] using alone.mark ',' rfl (ih others)

theorem spells_prettyMembers {members : List (Option String × Json)} (depth : Nat)
    (named : ∀ member ∈ members, member.1.isSome)
    (spelled : ∀ member ∈ members, ∀ depth,
      Spells (member.2.prettyCharacters depth) member.2.tokens) :
    Spells (prettyMembers depth members) (memberTokens members) := by
  induction members with
  | nil => exact .nil
  | cons member rest ih =>
      obtain ⟨name, value⟩ := member
      obtain ⟨text, rfl⟩ := Option.isSome_iff_exists.mp (named _ List.mem_cons_self)
      obtain ⟨first, others⟩ := List.forall_mem_cons.mp spelled
      have colon := (Spells.string text).mark ':' rfl
        (Spells.nil.blank ' ' rfl (first depth))
      have alone := Spells.nil.lineBreak depth colon
      cases rest with
      | nil => simpa [prettyMembers, memberTokens] using alone
      | cons next more =>
          have both := alone.mark ',' rfl
            (ih (List.forall_mem_cons.mp named).2 others)
          simpa [prettyMembers, memberTokens] using both

theorem Lossless.spells_pretty {document : Json} (lossless : document.Lossless) :
    ∀ depth, Spells (document.prettyCharacters depth) document.tokens := by
  induction lossless with
  | null => exact fun _ => Spells.null
  | bool value => exact fun _ => Spells.bool value
  | number fits => exact fun _ => Spells.number fits
  | string text => exact fun _ => Spells.string text
  | @array items _ spelled =>
      intro depth
      cases items with
      | nil => exact Spells.nil.mark '[' rfl (Spells.nil.mark ']' rfl .nil)
      | cons item rest =>
          have inner := (spells_prettyItems (depth + 1) spelled).lineBreak depth
            (Spells.nil.mark ']' rfl .nil)
          simpa [prettyCharacters, tokens] using Spells.nil.mark '[' rfl inner
  | @object members named _ spelled =>
      intro depth
      cases members with
      | nil => exact Spells.nil.mark '\x7b' rfl (Spells.nil.mark '\x7d' rfl .nil)
      | cons member rest =>
          have inner := (spells_prettyMembers (depth + 1) named spelled).lineBreak depth
            (Spells.nil.mark '\x7d' rfl .nil)
          simpa [prettyCharacters, tokens] using Spells.nil.mark '\x7b' rfl inner

namespace Reader

def Reads (document : Json) : Prop := ∀ stack mayClose,
  document.tokens.foldlM next? (.atValue stack mayClose) = some (.behindValue stack document)

theorem reads_items {items : List Json} (reads : ∀ item ∈ items, Reads item) (item : Json)
    (first : Reads item) (stack : List Frame) (before : List Json) (mayClose : Bool) :
    (itemTokens (item :: items) ++ [Token.closeArray]).foldlM next?
        (.atValue (.items before :: stack) mayClose) =
      some (.behindValue stack (.array (before.reverse ++ item :: items))) := by
  have head := first (.items before :: stack) mayClose
  induction items generalizing item before mayClose with
  | nil => simp [itemTokens, List.foldlM_append, head, next?]
  | cons following more ih =>
      obtain ⟨second, others⟩ := List.forall_mem_cons.mp reads
      have rest := ih others following second (item :: before) false (second _ _)
      simp only [itemTokens, List.append_assoc, List.foldlM_append, head]
      simpa [List.foldlM_append, next?] using rest

theorem reads_members {members : List (Option String × Json)}
    (reads : ∀ member ∈ members, Reads member.2) (member : Option String × Json)
    (first : Reads member.2) (stack : List Frame) (before : List (Option String × Json))
    (mayClose : Bool) :
    (memberTokens (member :: members) ++ [Token.closeObject]).foldlM next?
        (.atName stack before mayClose) =
      some (.behindValue stack (.object (before.reverse ++ member :: members))) := by
  have head := first (.members before member.1 :: stack) false
  induction members generalizing member before mayClose with
  | nil => simp [memberTokens, List.foldlM_append, head, next?]
  | cons following more ih =>
      obtain ⟨second, others⟩ := List.forall_mem_cons.mp reads
      have rest := ih others following second (member :: before) false (second _ _)
      simp only [memberTokens, List.cons_append, List.append_assoc, List.foldlM_cons, next?,
        Option.bind_eq_bind, Option.bind_some, List.foldlM_append, head]
      simpa [List.foldlM_append, next?] using rest

theorem reads_all (document : Json) : Reads document := by
  induction document using induction_parts with
  | null | bool value | number value | string text => exact fun _ _ => rfl
  | array items reads =>
      intro stack mayClose
      cases items with
      | nil => rfl
      | cons item rest =>
          obtain ⟨first, others⟩ := List.forall_mem_cons.mp reads
          simpa [tokens, next?] using reads_items others item first stack [] true
  | object members reads =>
      intro stack mayClose
      cases members with
      | nil => rfl
      | cons member rest =>
          obtain ⟨first, others⟩ := List.forall_mem_cons.mp reads
          simpa [tokens, next?] using reads_members others member first stack [] true

end Reader

theorem ofTokens?_tokens (document : Json) : ofTokens? document.tokens = some document := by
  simp [ofTokens?, Reader.start, Reader.reads_all document [] false, Reader.document?]

theorem Lossless.parse?_compact {document : Json} (lossless : document.Lossless) :
    parse? document.compact = some document := by
  simp [parse?, compact, lossless.spells_compact.scan_eq, ofTokens?_tokens]

theorem Lossless.parse?_pretty {document : Json} (lossless : document.Lossless) :
    parse? document.pretty = some document := by
  simp [parse?, pretty, (lossless.spells_pretty 0).scan_eq, ofTokens?_tokens]

end BranchSteer.Json
