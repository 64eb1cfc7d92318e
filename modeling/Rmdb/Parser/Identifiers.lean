import Rmdb.Parser.Grammar
import Rmdb.System.Schema

namespace Rmdb
open Lexer Ast

/-! The names in a statement are identifiers. -/

namespace Parser

theorem alpha_char : ∀ n < 256, isAlpha (UInt8.ofNat n) = true → (Char.ofNat n).isAlpha = true := by decide +kernel

theorem word_char : ∀ n < 256, (UInt8.ofNat n = byte '_' || isAlpha (UInt8.ofNat n) || isDigit (UInt8.ofNat n)) = true →
    (Char.ofNat n).isAlphanum = true ∨ Char.ofNat n = '_' := by
  decide +kernel

theorem isIdentifier_name {text : List UInt8} (word : Lettered text) : IsIdentifier (name text) := by
  cases text with
  | nil => exact word.elim
  | cons a rest =>
    have back : ∀ b : UInt8, UInt8.ofNat b.toNat = b := fun b => by simp
    rw [IsIdentifier, name, String.toList_ofList]
    refine ⟨alpha_char _ a.toNat_lt (by rw [back]; exact word.1), ?_⟩
    rintro _ member
    obtain ⟨b, inside, rfl⟩ := List.mem_map.mp member
    exact word_char _ b.toNat_lt (by rw [back]; exact word.2 b inside)

section
variable {ts us : List Token} {tabName : String} {fields : List Ast.ColDef}

theorem Identifier.isIdentifier (rule : Identifier ts tabName) (written : ∀ t ∈ ts, Written t) :
    IsIdentifier tabName := by
  cases rule with
  | mk a text => exact isIdentifier_name (written _ List.mem_cons_self)

theorem TypeRule.isType {type : TypeLen} (rule : TypeRule ts type) : IsType type := by
  cases rule with
  | int => exact .int
  | char text => exact .char _ (isInt_wrapInt _)
  | float => exact .float

theorem Field.isField {field : Ast.ColDef} (rule : Field ts field) (written : ∀ t ∈ ts, Written t) : IsField field := by
  cases rule with
  | mk colName type =>
    exact ⟨colName.isIdentifier fun t member => written t (List.mem_append_left _ member), type.isType⟩

theorem isFieldList_of_listed (rule : Listed Field Comma ts fields) (written : ∀ t ∈ ts, Written t) :
    IsFieldList fields := by
  induction rule with
  | one field => exact .field (field.isField written)
  | more _ _ field ih =>
    refine .comma (ih fun t member => written t ?_) (field.isField fun t member => written t ?_)
    · exact List.mem_append_left _ member
    · exact List.mem_append_right _ (List.mem_cons_of_mem _ member)

/-- The names in CREATE TABLE are identifiers, and its lengths are `int`s. -/
theorem Parses.createTable {c : StartCondition} {request : List UInt8}
    (parses : Parser.Parses c request (.createTable tabName fields)) : IsIdentifier tabName ∧ IsFieldList fields := by
  cases parses with
  | @stmt ts rest _ cut rule =>
    have written : ∀ t ∈ ts, Written t := fun t member =>
      written_of_scanner t (cut ▸ List.mem_append_left _ member)
    cases rule with
    | createTable tbName list =>
      refine ⟨tbName.isIdentifier fun t member => written t ?_, isFieldList_of_listed list fun t member => written t ?_⟩
      · simp [member]
      · simp [member]

end

end Parser

end Rmdb
