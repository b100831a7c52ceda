import OpenSesame.Theorems.Ledger.PrivilegeHistory

/-! # Signers after an operation

`SetSignerWeight` and `SetPrivilege` do not look at what `UpdateSigner` returns. -/

namespace OpenSesame
open Protocol OperationFrm AccountFrm List

section Lists
variable {frm : AccountFrm} {x y : Signer} {l : List Signer}

/-- No signer is listed with two weights. -/
def Consistent (l : List Signer) : Prop :=
  ∀ y ∈ l, ∀ z ∈ l, y.address = z.address → y = z ∨ ¬0 < y.weight ∧ ¬0 < z.weight

end Lists

/-! ### The operations -/

end OpenSesame
