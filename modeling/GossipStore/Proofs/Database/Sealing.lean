import GossipStore.Proofs.Clock
import GossipStore.Proofs.Gossip.Writing

set_option autoImplicit false

/-! # Sealing succeeds

What is sealed next on a chain needs a later time than the bundle before it. A source of timestamps
gives one whatever the clock shows, and moves on by no more than one step of its own
(`TimestampSource.issue_spec`), so times do not run out as long as they are far from the greatest
one. Under such a time an open bundler can be sealed, since its changes have been checked when they
were added and nothing but an amount of bytes beyond any memory keeps a bundle from being written
(`Bundler.sealWith_eq_ok`).
-/

namespace GossipStore

/-! ## Metadata -/

namespace BundleInfo

variable {info : BundleInfo} {t : Timestamp}

theorem validate_withComment (info : BundleInfo) (comment : Option String) :
    ({ info with comment } : BundleInfo).validate = info.validate := rfl

/-- What comes later on a valid chain is valid. -/
theorem validate_extend (h : info.validate = .ok ()) (ht : info.timestamp < t) :
    (info.extend t).validate = .ok () := by
  obtain ⟨hmedallion, hpos, hstart, hle, -, -⟩ := validate_eq_ok_iff.mp h
  refine validate_eq_ok_iff.mpr ⟨hmedallion, Std.lt_trans hpos ht, hstart,
    Std.le_of_lt (Std.lt_of_le_of_lt hle ht), (fun hnone => by cases hnone), fun p hp => ?_⟩
  obtain rfl : info.timestamp = p := Option.some.inj hp
  exact ⟨ht, hle⟩

theorem validate_first {medallion : Medallion} (hmedallion : 0 < medallion) (ht : 0 < t) :
    (first medallion t).validate = .ok () :=
  validate_eq_ok_iff.mpr ⟨hmedallion, ht, ht, Std.le_refl t, fun _ => rfl, fun p hp => by cases hp⟩

end BundleInfo

/-! ## Sizes -/

namespace BundleFormat

open Cbor

theorem length_form_ofNat (n : Nat) : (Value.ofNat n).form.length ≤ 9 := by
  rw [Value.ofNat, Value.form]
  exact length_head_le _ _

theorem length_formEntries_field (k : Nat) (v : Value) :
    (formEntries (field k v)).length ≤ 9 + v.form.length := by
  have hkey := length_form_ofNat k
  simp only [field, formEntries, List.append_nil, List.length_append]
  omega

/-- How many bytes a comment takes up. -/
def commentSize (comment : Option String) : Nat :=
  (comment.map fun text => (Bytes.ofText text).length).getD 0

/-- How many bytes some changes take up. -/
def changesSize (changes : List Change) : Nat := (formItems (changes.map ofChange)).length

/-- All but the comment and the changes takes up little. -/
theorem length_form_ofParts (info : BundleInfo) (changes : List Change) :
    (ofParts info changes).form.length ≤ 135 + commentSize info.comment + changesSize changes := by
  have hnumber (k : Nat) (n : Int64) : (formEntries (field k (ofInt64 n))).length ≤ 18 :=
    Nat.le_trans (length_formEntries_field k _) (Nat.add_le_add_left (length_ofInt64_le n) 9)
  have hversion := length_formEntries_field versionKey (.ofNat version.toNat)
  have hversion' := length_form_ofNat version.toNat
  have hprior : (formEntries (optionalField priorTimeKey ofInt64 info.priorTime)).length ≤ 18 := by
    cases info.priorTime with
    | none => exact Nat.zero_le _
    | some prior => exact hnumber _ prior
  have hcomment : (formEntries (optionalField commentKey .text info.comment)).length
      ≤ 18 + commentSize info.comment := by
    cases info.comment with
    | none => exact Nat.zero_le _
    | some comment =>
        have hfield := length_formEntries_field commentKey (.text comment)
        have hhead := length_head_le textType (Bytes.ofText comment).length
        rw [Value.form, List.length_append] at hfield
        simp only [optionalField, commentSize, Option.map_some, Option.getD_some]
        omega
  have hchanges := length_formEntries_field changesKey (.array (changes.map ofChange))
  have hhead := length_head_le arrayType (changes.map ofChange).length
  rw [Value.form, List.length_append] at hchanges
  have htimestamp := hnumber timestampKey info.timestamp
  have hmedallion := hnumber medallionKey info.medallion
  have hstart := hnumber chainStartKey info.chainStart
  have hmap := length_head_le mapType (bundleFields info changes).length
  rw [ofParts_eq, Value.form, List.length_append]
  unfold bundleFields changesSize at *
  simp only [formEntries_append, List.length_append] at *
  omega

end BundleFormat

/-! ## Bundlers -/

theorem Bundle.ofParts_eq_ok {info : BundleInfo} {changes : List Change}
    (hi : info.validate = .ok ()) (hc : ∀ c ∈ changes, c.validate = .ok ())
    (hsize : BundleFormat.commentSize info.comment + BundleFormat.changesSize changes
      < 0x8000000000000000) :
    ∃ b, Bundle.ofParts info changes = .ok b := by
  have hlen := BundleFormat.length_form_ofParts info changes
  have hencode : BundleFormat.encode info changes
      = .ok (BundleFormat.ofParts info changes).form := by
    rw [BundleFormat.encode_eq, if_pos (by omega)]
  unfold Bundle.ofParts
  split
  · rename_i e he
    rw [hi] at he
    cases he
  · split
    · rename_i e he
      rw [validateChanges_eq_ok_iff.mpr hc] at he
      cases he
    · split
      · rename_i e he
        rw [hencode] at he
        cases he
      · exact ⟨_, rfl⟩

namespace Bundler

/-- What becomes of a new bundler before it is sealed. -/
inductive Open : Bundler → Prop where
  | new : Open new
  | withComment {b : Bundler} (before : Open b) (comment : String) : Open (b.withComment comment)
  | withMedallion {b : Bundler} (before : Open b) (medallion : Medallion) :
      Open (b.withMedallion medallion)
  | addChange {b b' : Bundler} {c : Change} {pending : PendingMuid} (before : Open b)
      (added : b.addChange c = .ok (b', pending)) : Open b'

variable {b b' : Bundler} {info : BundleInfo}

/-- An open bundler has not been sealed, and its changes have been checked. -/
theorem Open.spec (h : b.Open) : b.sealed = none ∧ ∀ c ∈ b.changes, c.validate = .ok () := by
  induction h with
  | new => exact ⟨rfl, List.forall_mem_nil _⟩
  | withComment before comment ih => exact ih
  | withMedallion before medallion ih => exact ih
  | addChange before added ih =>
      obtain ⟨-, hc, rfl, -⟩ := addChange_eq_ok added
      exact ⟨ih.1, List.forall_mem_append.mpr ⟨ih.2, List.forall_mem_singleton.mpr hc⟩⟩

/-- How many bytes the comment and the changes of a bundler take up. -/
def size (b : Bundler) : Nat :=
  BundleFormat.commentSize b.comment + BundleFormat.changesSize b.changes

/-- **An open bundler can be sealed** under valid metadata, if it insists on no other medallion and
its bytes can be counted. -/
theorem sealWith_eq_ok (h : b.Open) (hinfo : info.validate = .ok ())
    (hmedallion : ∀ m, b.medallion = some m → m = info.medallion)
    (hsize : BundleFormat.commentSize (info.comment <|> b.comment)
      + BundleFormat.changesSize b.changes < 0x8000000000000000) :
    ∃ b' bundle, b.sealWith info = .ok (b', bundle) := by
  obtain ⟨hsealed, hvalid⟩ := h.spec
  have hwith : ({ info with comment := info.comment <|> b.comment } : BundleInfo).validate
      = .ok () := (BundleInfo.validate_withComment info _).trans hinfo
  obtain ⟨bundle, hbundle⟩ := Bundle.ofParts_eq_ok hwith hvalid hsize
  have hopen : b.ensureOpen = .ok () := ensureOpen_eq_ok_iff.mpr hsealed
  have hcheck : checkMedallion info b.medallion = .ok () := by
    cases hm : b.medallion with
    | none => rfl
    | some m => rw [checkMedallion, if_neg fun hne => hne (hmedallion m hm)]
  refine ⟨{ b with sealed := some bundle }, bundle, ?_⟩
  rw [sealWith_eq, hopen, hcheck]
  simp only [bind, Except.bind, pure, Except.pure, hbundle]

end Bundler

end GossipStore
