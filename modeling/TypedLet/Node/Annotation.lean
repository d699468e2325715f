import TypedLet.Node.Basic

namespace TypedLet

/-- The type that an annotation names, or the first part of it, from the left, that is no
annotation. -/
def Node.toTy : Node → Except Node Ty
  | .intType _ => .ok .int
  | .boolType _ => .ok .bool
  | .funcType a b _ => do
    let domain ← a.toTy
    let codomain ← b.toTy
    return .fn domain codomain
  | other => .error other

end TypedLet
