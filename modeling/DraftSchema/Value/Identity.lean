import DraftSchema.Node.Display
import DraftSchema.Value.Key

/-!
When two values are one and the same thing. What is equal need not be: numbers and texts are made
anew each time, save for a few short ones of which there is only one each.
-/
namespace DraftSchema

/-- Whether there is only one number of its kind. -/
def isSharedInt (n : Int) : Bool := -5 ≤ n && n ≤ 256

/-- Whether there is only one text of its kind. -/
def isSharedText (s : String) : Bool :=
  match s.toList with
  | [] => true
  | [c] => c.toNat < 256
  | _ => false

/-- Whether two things with numbers of their own are one. -/
def sameNumber (a b : Nat) : Bool := a ≠ 0 && a = b

/-- Whether there is only one thing of a kind. -/
def isSingle (kind : String) : Bool := kind = "ellipsis" || kind = "NotImplementedType"

/-- Whether two types are one: types that are made by name are kept, those made with bars are not. -/
def Store.sameType (s : Store) (a b : TypeForm Value) : Bool :=
  match a with
  | .union true _ => false
  | a =>
    Value.typeKey a = Value.typeKey b
      && (s.valueDetail (.type a)).toOption = (s.valueDetail (.type b)).toOption

/-- Whether two values that were made on different occasions are one and the same. -/
def Store.identical (s : Store) (a b : Value) : Bool :=
  match a, b with
  | .null, .null => true
  | .bool a, .bool b => a = b
  | .int a, .int b => a = b && isSharedInt a
  | .text a, .text b => a = b && isSharedText a
  | .bytes a, .bytes b => a = b
  | .list a _, .list b _ => sameNumber a b
  | .dict a _, .dict b _ => sameNumber a b
  | .tuple [], .tuple [] => true
  | .regex a, .regex b => a = b
  | .function a _, .function b _ => sameNumber a b
  | .node a, .node b => a = b
  | .type a, .type b => s.sameType a b
  | .nodeClass a, .nodeClass b => a = b
  | .builtin a, .builtin b => a = b
  | .foreign a kind, .foreign b kind' => sameNumber a b || (kind = kind' && isSingle kind)
  | _, _ => false

end DraftSchema
