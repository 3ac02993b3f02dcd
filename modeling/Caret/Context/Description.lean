import Caret.Context.Basic
import Caret.Types.Listing
/-!
# Descriptions of contexts

A context in one line, field by field.
-/

namespace Caret

def describeReference (i : Ref) : String := "NodeIndex(" ++ toString (i.getD 4294967295) ++ ")"

def TypeId.describe (id : TypeId) : String := "TypeId(" ++ toString id.number ++ ")"

def Context.describedFields (c : Context) : List (String × String) :=
  [("position", toString c.offset),
   ("left_token", describeReference c.left),
   ("target_token", describeReference c.target),
   ("is_instance_context", toString c.inInstance),
   ("is_non_attribute_expression_context", toString c.allowsExpression),
   ("is_statement_context", toString c.allowsStatement),
   ("containing_type_declaration", describeReference c.containingType),
   ("inferred_types", "\x7b" ++
      String.intercalate ", " ((TypeId.listing c.inferred).map TypeId.describe) ++ "\x7d")]

/-- The description of a context. Its table and its model are left out, as the dots say. -/
def Context.describe (c : Context) : String :=
  "SyntaxContext \x7b " ++
    String.join (c.describedFields.map fun (name, value) => name ++ ": " ++ value ++ ", ") ++
    ".. \x7d"

end Caret
