import GossipStore.Bundle.Bundler
import GossipStore.Data.Except

set_option autoImplicit false

/-! # What a bundler does

Each operation on a bundler first checks that it is open. If it succeeds, the bundler has changed in
one place only: there is one more change, another comment, or a bundle of all changes that has been
sealed. -/

namespace GossipStore

theorem Bundle.parts_of_ofParts {info : BundleInfo} {changes : List Change} {b : Bundle}
    (h : Bundle.ofParts info changes = .ok b) : b.info = info ∧ b.changes = changes := by
  unfold Bundle.ofParts at h
  split at h
  · cases h
  · split at h
    · cases h
    · split at h
      · cases h
      · cases h
        exact ⟨rfl, rfl⟩

namespace Bundler

variable {b b' : Bundler} {info : BundleInfo} {bundle : Bundle}

/-! ## Open bundlers -/

theorem ensureOpen_eq_ok_iff {u : Unit} : b.ensureOpen = .ok u ↔ b.sealed = none := by
  rw [ensureOpen, isSealed]
  cases b.sealed <;> simp

theorem ensureOpen_of_sealed (h : b.sealed = some bundle) :
    b.ensureOpen = .error .alreadySealed := by
  rw [ensureOpen, isSealed, h]
  rfl

/-! ## Changes and comments -/

theorem setComment_eq_ok {comment : String} (h : b.setComment comment = .ok b') :
    b.sealed = none ∧ b' = { b with comment := some comment } := by
  obtain ⟨u, hopen, h⟩ := exists_of_bind_eq_ok h
  exact ⟨ensureOpen_eq_ok_iff.mp hopen, (Except.ok.inj h).symm⟩

/-- A change that is added has been checked. Its address counts the changes up to it. -/
theorem addChange_eq_ok {c : Change} {pending : PendingMuid}
    (h : b.addChange c = .ok (b', pending)) :
    b.sealed = none ∧ c.validate = .ok () ∧ b' = { b with changes := b.changes ++ [c] }
      ∧ pending = ⟨UInt32.ofNat (b.changes.length + 1)⟩ := by
  obtain ⟨u, hopen, h⟩ := exists_of_bind_eq_ok h
  cases hc : c.validate with
  | error e =>
      rw [hc] at h
      cases h
  | ok u =>
      rw [hc] at h
      obtain ⟨hb', hpending⟩ := Prod.mk.inj (Except.ok.inj h)
      rw [List.length_append] at hpending
      exact ⟨ensureOpen_eq_ok_iff.mp hopen, rfl, hb'.symm, hpending.symm⟩

/-! ## Sealing -/

/-- Fails if a bundle must be sealed under another medallion. -/
def checkMedallion (info : BundleInfo) : Option Medallion → Except BundleError Unit
  | none => .ok ()
  | some expected =>
    if expected ≠ info.medallion then .error (.medallionMismatch expected info.medallion)
    else .ok ()

theorem sealWith_eq (b : Bundler) (info : BundleInfo) : b.sealWith info = (do
    b.ensureOpen
    checkMedallion info b.medallion
    let bundle ← Bundle.ofParts { info with comment := info.comment <|> b.comment } b.changes
    return ({ b with sealed := some bundle }, bundle)) := by
  rw [sealWith]
  cases b.medallion with
  | none => rfl
  | some expected =>
      by_cases hne : expected ≠ info.medallion
      · simp only [checkMedallion, if_pos hne]
        rfl
      · simp only [checkMedallion, if_neg hne]
        rfl

/-- A bundler is sealed as the bundle of its changes, under the given metadata and perhaps a
comment. -/
theorem parts_of_sealWith (h : b.sealWith info = .ok (b', bundle)) :
    b.sealed = none ∧ b' = { b with sealed := some bundle }
      ∧ (∃ comment, bundle.info = { info with comment }) ∧ bundle.changes = b.changes := by
  rw [sealWith_eq] at h
  obtain ⟨u, hopen, h⟩ := exists_of_bind_eq_ok h
  obtain ⟨u, -, h⟩ := exists_of_bind_eq_ok h
  obtain ⟨sealed, hparts, h⟩ := exists_of_bind_eq_ok h
  obtain ⟨rfl, rfl⟩ := Prod.mk.inj (Except.ok.inj h)
  obtain ⟨hinfo, hchanges⟩ := Bundle.parts_of_ofParts hparts
  exact ⟨ensureOpen_eq_ok_iff.mp hopen, rfl, ⟨_, hinfo⟩, hchanges⟩

end Bundler

end GossipStore
