import GossipStore.Proofs.Bundle.Canonical
import GossipStore.Proofs.Index.Records
import GossipStore.Store.Log

set_option autoImplicit false

/-! # Replaying a longer log

A log grows by rows at the end of its bundles and by claims at the end of its claims. Replaying
reads all bundles before the first claim, whatever the order in which they were written, so the
two kinds of growth have to be traced through the replay one by one: a new bundle is applied to
the index that the old log described (`replay_withBundle`), and a new claim is made there
(`replay_appendClaim`).
-/

namespace GossipStore.Log

/-! ## Rows -/

/-- The row of a bundle under a number. -/
def rowOf (seq : Nat) (b : Bundle) : LogRow :=
  ⟨seq, ⟨b.info.timestamp, b.info.medallion⟩, b.info.chainStart, b.bytes⟩

/-- The rows of bundles, numbered from the first of them. -/
def rowsFrom (seq : Nat) : List Bundle → List LogRow
  | [] => []
  | b :: rest => rowOf seq b :: rowsFrom (seq + 1) rest

theorem rowsFrom_append (seq : Nat) (bs cs : List Bundle) :
    rowsFrom seq (bs ++ cs) = rowsFrom seq bs ++ rowsFrom (seq + bs.length) cs := by
  induction bs generalizing seq with
  | nil => rfl
  | cons b rest ih =>
      have hseq : seq + 1 + rest.length = seq + (b :: rest).length := by
        rw [List.length_cons]
        omega
      rw [List.cons_append, rowsFrom, ih, hseq]
      rfl

/-- The log with more bundles at its end. -/
def withBundles (l : Log) (bs : List Bundle) : Log :=
  { l with rows := l.rows ++ rowsFrom l.nextSeq bs, nextSeq := l.nextSeq + bs.length }

/-- A bundle is appended unless its time and owner stand in the log already. -/
theorem appendBundle_eq (l : Log) (b : Bundle) :
    l.appendBundle b = if l.hasKey ⟨b.info.timestamp, b.info.medallion⟩ then .error .duplicateRow
      else .ok (l.withBundles [b]) := by
  rw [appendBundle, append?]
  split
  · rename_i h
    split at h
    · cases h
    · cases h
      rename_i hkey
      rw [if_neg hkey]
      rfl
  · rename_i h
    split at h
    · rename_i hkey
      rw [if_pos hkey]
    · cases h

/-! ## Claims in a replay -/

@[simp] theorem check_replayClaims (ix : Index) (claims : List ClaimedChain) (info : BundleInfo) :
    (replayClaims ix claims).check info = ix.check info := by
  induction claims generalizing ix with
  | nil => rfl
  | cons c rest ih => exact ih (ix.claimChain c.chain c.actor)

theorem apply_replayClaims (ix : Index) (claims : List ClaimedChain) (b : Bundle) :
    (replayClaims ix claims).apply b = replayClaims (ix.apply b) claims := by
  induction claims generalizing ix with
  | nil => rfl
  | cons c rest ih =>
      have h := ih (ix.claimChain c.chain c.actor)
      rw [Index.apply_claimChain] at h
      exact h

/-! ## Replaying -/

theorem replayRows_append {ix ix' : Index} {rows : List LogRow} (h : replayRows ix rows = .ok ix')
    (rows' : List LogRow) : replayRows ix (rows ++ rows') = replayRows ix' rows' := by
  induction rows generalizing ix with
  | nil =>
      cases h
      rfl
  | cons r rest ih =>
      rw [replayRows] at h
      rw [List.cons_append, replayRows]
      cases hr : replayRow ix r with
      | error e =>
          rw [hr] at h
          cases h
      | ok ix₁ =>
          rw [hr] at h
          exact ih h

/-- The row of a new bundle is read back as that bundle and applied. -/
theorem replayRow_rowOf {ix : Index} {b : Bundle} (h : ix.check b.info = .ok true) (seq : Nat) :
    replayRow ix (rowOf seq b) = .ok (ix.apply b) := by
  have hdecode : Bundle.decode (rowOf seq b).bytes = .ok b := b.decode_bytes
  have hadd : ix.add b = .ok (ix.apply b, true) := by
    rw [Index.add_eq, h]
    rfl
  rw [replayRow, hdecode]
  simp only [hadd]

/-- What replaying a log amounts to. -/
theorem replay_eq_ok_iff {l : Log} {ix : Index} :
    l.replay = .ok ix ↔ l.checkSchema = .ok () ∧
      ∃ ix', replayRows (.empty l.keepsHistory) l.rows = .ok ix'
        ∧ ix = replayClaims ix' l.claims := by
  rw [replay]
  cases l.checkSchema with
  | error e =>
      constructor
      · intro h
        cases h
      · rintro ⟨h, -⟩
        cases h
  | ok u =>
      cases replayRows (.empty l.keepsHistory) l.rows with
      | error e =>
          constructor
          · intro h
            cases h
          · rintro ⟨-, ix', h, -⟩
            cases h
      | ok ix' =>
          constructor
          · intro h
            cases h
            exact ⟨rfl, ix', rfl, rfl⟩
          · rintro ⟨-, ix'', h, rfl⟩
            cases h
            rfl

/-- A log with a new bundle describes the index with that bundle. -/
theorem replay_withBundle {l : Log} {ix : Index} {b : Bundle} (h : l.replay = .ok ix)
    (hnew : ix.check b.info = .ok true) : (l.withBundles [b]).replay = .ok (ix.apply b) := by
  obtain ⟨hschema, ix', hrows, rfl⟩ := replay_eq_ok_iff.mp h
  -- the bundle is replayed before the claims, but was added after them
  rw [check_replayClaims] at hnew
  refine replay_eq_ok_iff.mpr ⟨hschema, ix'.apply b, ?_, apply_replayClaims ix' l.claims b⟩
  have hrow : replayRows ix' [rowOf l.nextSeq b] = .ok (ix'.apply b) := by
    rw [replayRows, replayRow_rowOf hnew]
    rfl
  exact (replayRows_append hrows _).trans hrow

/-- A log with a new claim describes the index with that claim. -/
theorem replay_appendClaim {l : Log} {ix : Index} (h : l.replay = .ok ix) (chain : ChainKey)
    (actor : ActorId) :
    (l.appendClaim ⟨chain, actor⟩).replay = .ok (ix.claimChain chain actor) := by
  obtain ⟨hschema, ix', hrows, rfl⟩ := replay_eq_ok_iff.mp h
  refine replay_eq_ok_iff.mpr ⟨hschema, ix', hrows, ?_⟩
  rw [replayClaims, replayClaims, appendClaim, List.foldl_append]
  rfl

end GossipStore.Log
