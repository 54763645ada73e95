import NpaCore.Certificate.CoreBytes
import NpaCore.Tactic.ProofExpr

/-!
# Canonical bytes and hashes

The encoders and hashes of `npa-tactic/src/lib.rs` over expressions, proof expressions and
local contexts. SHA-256 is a parameter. A hash of a core expression is computed from the
hashes of its parts; the source keeps those by address, which changes none of them.
-/

namespace NpaCore.Tactic

open NpaCore.Certificate (encodeUvarTo encodeComponentTo encodeNameTo coreExprCanonicalBytes)
open NpaCore.Wire (Bytes Hash Name)

/-! ### Encoders -/

/-- `encode_u64_to`, and `encode_list_len_to`. -/
def encodeU64To (value : Nat) : Bytes := encodeUvarTo value

/-- `encode_string_to`. -/
def encodeStringTo (value : String) : Bytes := encodeComponentTo value

def encodeHashTo (hash : Hash) : Bytes := hash.toList

/-- A list after its length. -/
def encodeListTo {α : Type} (encode : α → Bytes) (items : List α) : Bytes :=
  encodeU64To items.length ++ items.flatMap encode

def textBytes (text : String) : Bytes := text.toByteArray.data.toList

def taggedBytes (tag : String) : Bytes := encodeStringTo tag

def encodeProofExprTo : ProofExpr → Bytes
  | .core core => 0x00 :: coreExprCanonicalBytes core
  | .metaVar id => 0x01 :: encodeU64To id
  | .app fn arg => 0x02 :: (encodeProofExprTo fn ++ encodeProofExprTo arg)
  | .lam binder ty body =>
    0x03 :: (encodeStringTo binder ++ coreExprCanonicalBytes ty ++ encodeProofExprTo body)

def encodeOptionProofExprTo : Option ProofExpr → Bytes
  | some expr => 1 :: encodeProofExprTo expr
  | none => [0]

def encodeMachineLocalDeclTo (localDecl : MachineLocalDecl) : Bytes :=
  encodeStringTo localDecl.name ++ coreExprCanonicalBytes localDecl.ty

def proofExprCanonicalBytes (expr : ProofExpr) : Bytes :=
  taggedBytes "npa.machine-tactic.proof-expr.v2" ++ encodeProofExprTo expr

def machineLocalContextCanonicalBytes (ctx : LocalContext) : Bytes :=
  taggedBytes "npa.machine-tactic.machine-local-context.v2" ++
    encodeListTo encodeMachineLocalDeclTo ctx

/-! ### Hashes -/

section Hashes

variable (sha256 : Bytes → Hash)

/-- `hash_with_domain`. -/
def hashWithDomain (domain : String) (bytes : Bytes) : Hash :=
  sha256 (textBytes domain ++ 0 :: bytes)

/-- `kernel_core_hash_with_domain`, which writes no zero after the domain. -/
def kernelCoreHashWithDomain (domain : String) (payload : Bytes) : Hash :=
  sha256 (textBytes domain ++ payload)

def levelHash (payload : Bytes) : Hash := kernelCoreHashWithDomain sha256 "NPA-LEVEL-0.1" payload

def exprHash (payload : Bytes) : Hash :=
  kernelCoreHashWithDomain sha256 "NPA-KERNEL-CORE-EXPR-0.1" payload

/-- The hash of a level as it stands, from the hashes of its parts. -/
def levelTreeHash : Kernel.Level → Hash
  | .zero => levelHash sha256 [0x00]
  | .succ inner => levelHash sha256 (0x01 :: encodeHashTo (levelTreeHash inner))
  | .max lhs rhs =>
    levelHash sha256 (0x02 :: (encodeHashTo (levelTreeHash lhs) ++ encodeHashTo (levelTreeHash rhs)))
  | .imax lhs rhs =>
    levelHash sha256 (0x03 :: (encodeHashTo (levelTreeHash lhs) ++ encodeHashTo (levelTreeHash rhs)))
  | .param name => levelHash sha256 (0x04 :: encodeStringTo name)

def kernelCoreLevelHash (level : Kernel.Level) : Hash := levelTreeHash sha256 level.normalizeLevel

/-- `core_expr_hash`, which is `kernel_core_expr_hash`. -/
def coreExprHash : Kernel.Expr → Hash
  | .sort level => exprHash sha256 (0x00 :: encodeHashTo (kernelCoreLevelHash sha256 level))
  | .bvar index => exprHash sha256 (0x01 :: encodeU64To index)
  | .const name levels =>
    exprHash sha256 (0x02 :: (encodeStringTo name ++
      encodeListTo (fun level => encodeHashTo (kernelCoreLevelHash sha256 level)) levels))
  | .app fn arg =>
    exprHash sha256 (0x03 :: (encodeHashTo (coreExprHash fn) ++ encodeHashTo (coreExprHash arg)))
  | .lam _ ty body =>
    exprHash sha256 (0x04 :: (encodeHashTo (coreExprHash ty) ++ encodeHashTo (coreExprHash body)))
  | .pi _ ty body =>
    exprHash sha256 (0x05 :: (encodeHashTo (coreExprHash ty) ++ encodeHashTo (coreExprHash body)))

def proofExprHash (expr : ProofExpr) : Hash :=
  hashWithDomain sha256 "npa.machine-tactic.proof-expr.hash.v2" (proofExprCanonicalBytes expr)

def machineLocalContextHash (ctx : LocalContext) : Hash :=
  hashWithDomain sha256 "npa.machine-tactic.machine-local-context.hash.v2"
    (machineLocalContextCanonicalBytes ctx)

end Hashes

/-- `hex_hash`. -/
def nibbleHex (value : Nat) : Char := if value < 10 then Char.ofNat (48 + value) else Char.ofNat (87 + value)

def hexHash (hash : Hash) : String :=
  String.ofList (hash.toList.flatMap fun byte =>
    [nibbleHex (byte.toNat / 16), nibbleHex (byte.toNat % 16)])

end NpaCore.Tactic
