import GossipStore.Bundle.Format

set_option autoImplicit false

/-! # Bundles

A sealed bundle is its canonical bytes together with what they say. The type holds the proof that
both agree and that the rules for metadata and changes are kept, so a bundle is the same whether
it was put together here (`Bundle.ofParts`) or read from bytes (`Bundle.decode`). -/

namespace GossipStore

/-- A sealed bundle. -/
structure Bundle where
  /-- The canonical form, which is what is stored and sent. -/
  bytes : Bytes
  info : BundleInfo
  changes : List Change
  infoValid : info.validate = .ok ()
  changesValid : ∀ c ∈ changes, c.validate = .ok ()
  encodes : BundleFormat.encode info changes = .ok bytes

namespace Bundle

theorem ext_parts {a b : Bundle} (hi : a.info = b.info) (hc : a.changes = b.changes) : a = b := by
  have ha := a.encodes
  have hb := b.encodes
  rw [hi, hc, hb] at ha
  have hbytes : a.bytes = b.bytes := (Except.ok.inj ha).symm
  cases a; cases b
  cases hi; cases hc; cases hbytes
  rfl

instance : DecidableEq Bundle := fun a b =>
  if hi : a.info = b.info then
    if hc : a.changes = b.changes then .isTrue (ext_parts hi hc)
    else .isFalse fun h => hc (h ▸ rfl)
  else .isFalse fun h => hi (h ▸ rfl)

/-- Checks changes from first to last. -/
def validateChanges : List Change → Except Malformation Unit
  | [] => .ok ()
  | c :: rest =>
    match c.validate with
    | .error e => .error e
    | .ok () => validateChanges rest

theorem validateChanges_eq_ok_iff {cs : List Change} :
    validateChanges cs = .ok () ↔ ∀ c ∈ cs, c.validate = .ok () := by
  induction cs with
  | nil => simp [validateChanges]
  | cons c rest ih =>
    rw [validateChanges]
    split
    · rename_i e he
      simp [he]
    · rename_i hc
      simp [hc, ih]

/-- Puts a bundle together from its parts, after checking them. -/
def ofParts (info : BundleInfo) (changes : List Change) : Except BundleError Bundle :=
  match hi : info.validate with
  | .error e => .error (.invalidInfo e)
  | .ok () =>
    match hc : validateChanges changes with
    | .error e => .error (.malformedBundle e)
    | .ok () =>
      match he : BundleFormat.encode info changes with
      | .error e => .error (.encoding e)
      | .ok bytes => .ok ⟨bytes, info, changes, hi, validateChanges_eq_ok_iff.1 hc, he⟩

/-- Reads a bundle from its canonical bytes. -/
def decode (b : Bytes) : Except BundleError Bundle :=
  match h : BundleFormat.decodeParts b with
  | .error e => .error e
  | .ok (info, changes) =>
    have hp := BundleFormat.decodeParts_eq_ok h
    .ok ⟨b, info, changes, hp.1, hp.2.1, hp.2.2⟩

/-- The address of the change with the given offset. -/
def changeId (b : Bundle) (offset : Nat) : Muid :=
  ⟨b.info.timestamp, b.info.medallion, UInt32.ofNat offset⟩

/-- The changes with their addresses, whose offsets count from one. -/
def changesWithIds (b : Bundle) : List (Muid × Change) :=
  b.changes.zipIdx.map fun e => (b.changeId (e.2 + 1), e.1)

/-- The containers that entries and clearances of the bundle change, with repetitions. -/
def touched (b : Bundle) : List Muid :=
  b.changes.filterMap fun c => c.touchedContainer? b.info.timestamp b.info.medallion

end Bundle

end GossipStore
