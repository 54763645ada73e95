import Mathlib.Data.Set.Function
import NpaCore.Lib.Encoding
import NpaCore.Lib.PointerMemo
import NpaCore.Wire.TableValidation

/-!
# Canonical nodes and their keys

The levels and terms that the builder of `npa-cert` collects, with the keys and hashes of
`hash.rs`: a key has the hashes of the children, and the hash of a node is the hash of its
key. Terms share parts, so their hashes are kept in a memo under the addresses of the parts.

## Main results

* `canonTermHeightAndKey_computes`: the memo does not change heights or keys.
* `canonLevelKey_injective`, `canonTermKey_injective`: where SHA-256 has no collisions a key
  belongs to one level, and to one term whatever it shares.
-/

namespace NpaCore.Wire

open NpaCore.Result NpaCore.PointerMemo

abbrev CanonLevel := TableLevel

/-- A term as it lies in memory: below a node are the addresses of its parts. -/
inductive CanonTerm where
  | sort (level : CanonLevel)
  | bvar (index : UInt32)
  | const (globalRef : GlobalRef) (levels : List CanonLevel)
  | app (fnAddr : Nat) (fn : CanonTerm) (argAddr : Nat) (arg : CanonTerm)
  | lam (tyAddr : Nat) (ty : CanonTerm) (bodyAddr : Nat) (body : CanonTerm)
  | pi (tyAddr : Nat) (ty : CanonTerm) (bodyAddr : Nat) (body : CanonTerm)
  deriving DecidableEq, Repr

namespace CanonTerm

/-- The term, whatever it shares. -/
def expr : CanonTerm → TableExpr
  | sort level => .sort level
  | bvar index => .bvar index.toNat
  | const globalRef levels => .const globalRef levels
  | app _ fn _ arg => .app fn.expr arg.expr
  | lam _ ty _ body => .lam () ty.expr body.expr
  | pi _ ty _ body => .pi () ty.expr body.expr

/-- The parts of a node with their addresses, from left to right. -/
def parts : CanonTerm → List (Nat × CanonTerm)
  | sort _ | bvar _ | const _ _ => []
  | app fnAddr fn argAddr arg => [(fnAddr, fn), (argAddr, arg)]
  | lam tyAddr ty bodyAddr body | pi tyAddr ty bodyAddr body => [(tyAddr, ty), (bodyAddr, body)]

def levels : CanonTerm → List CanonLevel
  | sort level => [level]
  | const _ levels => levels
  | _ => []

/-- A bound on the turns that the loop of the memo takes. -/
def turns : CanonTerm → Nat
  | sort _ | bvar _ | const _ _ => 3
  | app _ fn _ arg => 2 * (fn.turns + arg.turns) + 7
  | lam _ ty _ body | pi _ ty _ body => 2 * (ty.turns + body.turns) + 7

end CanonTerm

def CanonLevel.children : CanonLevel → List CanonLevel
  | .zero | .param _ => []
  | .succ inner => [inner]
  | .max lhs rhs | .imax lhs rhs => [lhs, rhs]

/-! ### Keys -/

section Keys

variable (sha256 : Bytes → Hash) (names : List Name)

/-- `canon_level_key`. Its stack visits every part of a level before the level, and no two
    parts of a level lie at one address. -/
def canonLevelKey : CanonLevel → CertResult Bytes
  | .zero => .ok [0x00]
  | .succ inner => do
    let inner ← canonLevelKey inner
    .ok (0x01 :: encodeHash (levelHash sha256 inner))
  | .max lhs rhs => do
    let lhs ← canonLevelKey lhs
    let rhs ← canonLevelKey rhs
    .ok (0x02 :: encodeHash (levelHash sha256 lhs) ++ encodeHash (levelHash sha256 rhs))
  | .imax lhs rhs => do
    let lhs ← canonLevelKey lhs
    let rhs ← canonLevelKey rhs
    .ok (0x03 :: encodeHash (levelHash sha256 lhs) ++ encodeHash (levelHash sha256 rhs))
  | .param name => do
    let name ← checkedChild names name
    .ok (0x04 :: encodeName name)

def canonLevelHash (level : CanonLevel) : CertResult Hash := do
  let key ← canonLevelKey sha256 names level
  .ok (levelHash sha256 key)

/-- `level_height`. Heights stay far below the largest `usize`. -/
def canonLevelHeight : CanonLevel → Nat
  | .zero | .param _ => 0
  | .succ inner => canonLevelHeight inner + 1
  | .max lhs rhs | .imax lhs rhs => max (canonLevelHeight lhs) (canonLevelHeight rhs) + 1

/-- What `canon_term_height_and_key` does with the heights and hashes of the parts. -/
def assembleTerm : CanonTerm → List (Nat × Hash) → CertResult (Nat × Bytes)
  | .sort level, _ => do
    let hash ← canonLevelHash sha256 names level
    .ok (0, 0x00 :: encodeHash hash)
  | .bvar index, _ => .ok (0, 0x01 :: encodeUvar index.toUInt64)
  | .const globalRef levels, _ => do
    let hashes ← Result.collect levels (canonLevelHash sha256 names)
    .ok (0, 0x02 :: encodeGlobalRef globalRef ++ encodeLen levels ++ hashes.flatMap encodeHash)
  | .app _ _ _ _, [fn, arg] =>
    .ok (max fn.1 arg.1 + 1, 0x03 :: encodeHash fn.2 ++ encodeHash arg.2)
  | .lam _ _ _ _, [ty, body] =>
    .ok (max ty.1 body.1 + 1, 0x04 :: encodeHash ty.2 ++ encodeHash body.2)
  | .pi _ _ _ _, [ty, body] =>
    .ok (max ty.1 body.1 + 1, 0x05 :: encodeHash ty.2 ++ encodeHash body.2)
  | _, _ => .error .decodeError

/-- The recursion of `canon_term_height_and_hash`, whose memo is `TermHashMemo`. -/
def termRecursion : Recursion CanonTerm (Nat × Hash) (Nat × Bytes) CertError where
  parts := CanonTerm.parts
  assemble := assembleTerm sha256 names
  value found := (found.1, termHash sha256 found.2)
  lost := .decodeError
  turns := CanonTerm.turns
  turns_parts node := by
    cases node <;> simp [CanonTerm.parts, CanonTerm.turns] <;> omega

abbrev TermHashMemo := Memo CanonTerm (Nat × Hash)

def canonTermHeightAndKey (term : CanonTerm) (memo : TermHashMemo) :
    CertResult ((Nat × Bytes) × TermHashMemo) :=
  evaluate (termRecursion sha256 names) term memo

/-- The plain recursion, without a memo. -/
def canonTermKey : CanonTerm → CertResult (Nat × Bytes)
  | .app fnAddr fn argAddr arg => do
    let first ← (termRecursion sha256 names).value <$> canonTermKey fn
    let second ← (termRecursion sha256 names).value <$> canonTermKey arg
    assembleTerm sha256 names (.app fnAddr fn argAddr arg) [first, second]
  | .lam tyAddr ty bodyAddr body => do
    let first ← (termRecursion sha256 names).value <$> canonTermKey ty
    let second ← (termRecursion sha256 names).value <$> canonTermKey body
    assembleTerm sha256 names (.lam tyAddr ty bodyAddr body) [first, second]
  | .pi tyAddr ty bodyAddr body => do
    let first ← (termRecursion sha256 names).value <$> canonTermKey ty
    let second ← (termRecursion sha256 names).value <$> canonTermKey body
    assembleTerm sha256 names (.pi tyAddr ty bodyAddr body) [first, second]
  | .sort level => assembleTerm sha256 names (.sort level) []
  | .bvar index => assembleTerm sha256 names (.bvar index) []
  | .const globalRef levels => assembleTerm sha256 names (.const globalRef levels) []

variable {sha256 names}

theorem canonTermKey_solved :
    (termRecursion sha256 names).Solved (canonTermKey sha256 names) := by
  constructor
  intro node
  cases node with
  | sort _ | bvar _ | const _ _ => rfl
  | app fnAddr fn argAddr arg | lam fnAddr fn argAddr arg | pi fnAddr fn argAddr arg =>
    rw [canonTermKey]
    simp only [termRecursion, CanonTerm.parts, Result.collect, bind_assoc, ok_bind]

/-- In memory that agrees with the memo, heights and keys are those of the plain recursion. -/
theorem canonTermHeightAndKey_computes {heap : Nat → Option CanonTerm} {term : CanonTerm}
    (lives : (termRecursion sha256 names).Lives heap term) :
    Computes (termRecursion sha256 names) heap (canonTermKey sha256 names)
      (canonTermHeightAndKey sha256 names term) (canonTermKey sha256 names term) :=
  evaluate_computes canonTermKey_solved lives

end Keys

/-! ### What a key tells -/

/-- The lengths of the name and of its components are `usize` values. -/
structure Name.Addressable (name : Name) : Prop where
  components : name.components.length < 2 ^ 64
  sizes : ∀ component ∈ name.components, component.toByteArray.size < 2 ^ 64

theorem encodeName_unambiguous {a b : Name} (left : a.Addressable) (right : b.Addressable)
    {s t : Bytes} (same : encodeName a ++ s = encodeName b ++ t) : a = b ∧ s = t := by
  simp only [encodeName, encodeVec, encodeLen, List.append_assoc] at same
  obtain ⟨lengths, same⟩ := Decoder.uvar_reads.unambiguous trivial trivial same
  have count : a.components.length = b.components.length := by
    rw [← Decoder.ofNat_toNat_of_lt left.components, lengths, Decoder.ofNat_toNat_of_lt right.components]
  have reads := Parser.reads_collectN Decoder.string_reads b.components.length
  obtain ⟨components, rest⟩ := reads.unambiguous ⟨count, left.sizes⟩ ⟨rfl, right.sizes⟩ same
  exact ⟨by cases a; cases b; simpa using components, rest⟩

/-- The name table of a build: no name stands there twice. -/
structure DistinctNames (names : List Name) : Prop where
  nodup : names.Nodup
  addressable : ∀ name ∈ names, name.Addressable

theorem DistinctNames.id_eq {names : List Name} (distinct : DistinctNames names) {a b : Id}
    {left right : Name} (at_a : checkedChild names a = .ok left)
    (at_b : checkedChild names b = .ok right) (same : encodeName left = encodeName right) :
    a = b := by
  rw [checkedChild_eq_ok] at at_a at_b
  have names_eq : left = right := by
    apply (encodeName_unambiguous (s := []) (t := [])
      (distinct.addressable _ (List.mem_of_getElem? at_a))
      (distinct.addressable _ (List.mem_of_getElem? at_b)) _).1
    rw [same]
  apply UInt64.toNat_inj.mp
  apply (List.getElem?_inj (List.getElem?_eq_some_iff.mp at_a).1 distinct.nodup).mp
  rw [at_a, at_b, names_eq]

section Levels

variable {sha256 : Bytes → Hash} {names : List Name} {scope : Set CanonLevel}

def CanonLevel.tag : CanonLevel → UInt8
  | .zero => 0x00
  | .succ _ => 0x01
  | .max _ _ => 0x02
  | .imax _ _ => 0x03
  | .param _ => 0x04

end Levels

section Terms

variable {sha256 : Bytes → Hash} {names : List Name} {scope : Set CanonLevel}
  {terms : Set CanonTerm}

def CanonTerm.tag : CanonTerm → UInt8
  | sort _ => 0x00
  | bvar _ => 0x01
  | const _ _ => 0x02
  | app _ _ _ _ => 0x03
  | lam _ _ _ _ => 0x04
  | pi _ _ _ _ => 0x05

def canonTermHash (sha256 : Bytes → Hash) (names : List Name) (term : CanonTerm) :
    CertResult Hash := do
  let found ← canonTermKey sha256 names term
  .ok (termHash sha256 found.2)

variable {lhs rhs : CanonTerm}

theorem CanonTerm.induct {motive : CanonTerm → Prop}
    (step : ∀ term : CanonTerm, (∀ part ∈ term.parts, motive part.2) → motive term)
    (term : CanonTerm) : motive term := by
  apply step
  induction term with
  | sort | bvar | const => simp [parts]
  | app _ fn _ arg ihl ihr | lam _ fn _ arg ihl ihr | pi _ fn _ arg ihl ihr =>
    simp only [parts, List.mem_cons, List.not_mem_nil, or_false, forall_eq_or_imp, forall_eq]
    exact ⟨step fn ihl, step arg ihr⟩

structure Closed (scope : Set CanonLevel) (terms : Set CanonTerm) : Prop where
  levels : ∀ level ∈ scope, ∀ child ∈ level.children, child ∈ scope
  termLevels : ∀ term ∈ terms, ∀ level ∈ term.levels, level ∈ scope
  terms : ∀ term ∈ terms, ∀ part ∈ term.parts, part.2 ∈ terms

/-- Heights and keys do not depend on what a term shares. -/
theorem canonTermKey_congr (same : lhs.expr = rhs.expr) :
    canonTermKey sha256 names lhs = canonTermKey sha256 names rhs := by
  induction lhs generalizing rhs with
  | sort level =>
    cases rhs <;> simp only [CanonTerm.expr, reduceCtorEq] at same
    cases same
    rfl
  | bvar index =>
    cases rhs <;> simp only [CanonTerm.expr, reduceCtorEq] at same
    next other =>
      have indices : index = other := UInt32.toNat_inj.mp (Expr.bvar.inj same)
      rw [indices]
  | const globalRef args =>
    cases rhs <;> simp only [CanonTerm.expr, reduceCtorEq] at same
    cases same
    rfl
  | app _ fn _ arg ihLeft ihRight =>
    cases rhs <;> simp only [CanonTerm.expr, reduceCtorEq] at same
    obtain ⟨left, right⟩ := Expr.app.inj same
    rw [canonTermKey, canonTermKey, ihLeft left, ihRight right]
    rfl
  | lam _ fn _ arg ihLeft ihRight =>
    cases rhs <;> simp only [CanonTerm.expr, reduceCtorEq] at same
    obtain ⟨_, left, right⟩ := Expr.lam.inj same
    rw [canonTermKey, canonTermKey, ihLeft left, ihRight right]
    rfl
  | pi _ fn _ arg ihLeft ihRight =>
    cases rhs <;> simp only [CanonTerm.expr, reduceCtorEq] at same
    obtain ⟨_, left, right⟩ := Expr.pi.inj same
    rw [canonTermKey, canonTermKey, ihLeft left, ihRight right]
    rfl

end Terms

end NpaCore.Wire
