import GossipStore.ChainTracker
import GossipStore.Gossip.Message
import GossipStore.Proofs.Bundle.Canonical

set_option autoImplicit false

/-! # Timelines of chains

What has been written so far is a list of bundles, a *history*, in which every chain is a line: each
bundle follows the one before it, and an owner has one chain (`History`). How far somebody has come
on every chain is its *progress*; it always stands at a bundle of the history or at the beginning
(`IsPoint`). Between two such points the bundle to come next is determined by the earlier one
(`History.prior_eq`), which is why sending each bundle as the next one after what the other side has
reached leaves no gap.

A list of messages on the way advances the progress of its recipient (`settled`), and it can be
taken in without a gap if every bundle in it starts from where the recipient will be by then
(`Deliverable`).
-/

namespace GossipStore

/-! ## Metadata of a bundle -/

theorem BundleInfo.validate_eq_ok_iff {info : BundleInfo} : info.validate = .ok () ↔
    0 < info.medallion ∧ 0 < info.timestamp ∧ 0 < info.chainStart
      ∧ info.chainStart ≤ info.timestamp
      ∧ (info.priorTime = none → info.timestamp = info.chainStart)
      ∧ ∀ p, info.priorTime = some p → p < info.timestamp ∧ info.chainStart ≤ p := by
  unfold validate
  cases hp : info.priorTime with
  | none => grind
  | some p => grind

/-- Metadata that is valid continues a chain from where its prior time says. -/
theorem ChainTracker.continuesFrom_iff_of_validate {info : BundleInfo}
    (hvalid : info.validate = .ok ()) {t : Timestamp} :
    continuesFrom info t = true ↔ info.priorTime.getD 0 = t := by
  obtain ⟨-, -, -, -, hfirst, -⟩ := BundleInfo.validate_eq_ok_iff.mp hvalid
  unfold continuesFrom
  -- the test for a first bundle also asks whether the chain begins with it, which is always so
  cases hp : info.priorTime with
  | none => simp [hfirst hp]
  | some p => simp

namespace Bundle

variable (b : Bundle)

theorem timestamp_pos : 0 < b.info.timestamp := (BundleInfo.validate_eq_ok_iff.mp b.infoValid).2.1

/-- The time from which a bundle goes on, which is zero for the first of a chain. -/
def prior : Timestamp := b.info.priorTime.getD 0

theorem prior_lt : b.prior < b.info.timestamp := by
  obtain ⟨-, hpos, -, -, -, hprior⟩ := BundleInfo.validate_eq_ok_iff.mp b.infoValid
  unfold prior
  cases hp : b.info.priorTime with
  | none => exact hpos
  | some p => exact (hprior p hp).1

theorem prior_eq_zero_iff : b.prior = 0 ↔ b.info.priorTime = none := by
  obtain ⟨-, -, hstart, -, -, hprior⟩ := BundleInfo.validate_eq_ok_iff.mp b.infoValid
  unfold prior
  cases hp : b.info.priorTime with
  | none => simp
  | some p =>
      -- the predecessor is in the chain, which does not begin before time one
      have := (hprior p hp).2
      simp only [Option.getD_some, reduceCtorEq, iff_false]
      grind

theorem continuesFrom_iff {t : Timestamp} :
    ChainTracker.continuesFrom b.info t = true ↔ b.prior = t :=
  ChainTracker.continuesFrom_iff_of_validate b.infoValid

end Bundle

/-! ## Histories -/

/-- Whether a time is that of a bundle of a chain, or comes before all of them. -/
def IsPoint (history : List Bundle) (chain : ChainKey) (t : Timestamp) : Prop :=
  t = 0 ∨ ∃ x ∈ history, x.info.chain = chain ∧ x.info.timestamp = t

instance (history : List Bundle) (chain : ChainKey) (t : Timestamp) :
    Decidable (IsPoint history chain t) :=
  inferInstanceAs (Decidable (t = 0 ∨ ∃ x ∈ history, x.info.chain = chain ∧ x.info.timestamp = t))

/-- The bundles written so far, each of which goes on from an earlier one of its chain. -/
structure History (history : List Bundle) : Prop where
  oneChain : ∀ x ∈ history, ∀ y ∈ history, x.info.medallion = y.info.medallion →
    x.info.chain = y.info.chain
  unique : ∀ x ∈ history, ∀ y ∈ history, x.info.chain = y.info.chain →
    x.info.timestamp = y.info.timestamp → x = y
  linked : ∀ x ∈ history, IsPoint history x.info.chain x.prior
  consecutive : ∀ x ∈ history, ∀ y ∈ history, x.info.chain = y.info.chain →
    y.info.timestamp < x.info.timestamp → y.info.timestamp ≤ x.prior

/-- Bundles of chains that do not fork: each goes on from the one before it on its chain. -/
structure Unforked (history : List Bundle) : Prop where
  linked : ∀ x ∈ history, IsPoint history x.info.chain x.prior
  consecutive : ∀ x ∈ history, ∀ y ∈ history, x.info.chain = y.info.chain →
    y.info.timestamp < x.info.timestamp → y.info.timestamp ≤ x.prior

section History

variable {history : List Bundle} {chain : ChainKey} {t : Timestamp}

theorem IsPoint.nonneg (h : IsPoint history chain t) : 0 ≤ t := by
  rcases h with rfl | ⟨x, -, -, rfl⟩
  · exact Std.le_refl 0
  · exact Std.le_of_lt x.timestamp_pos

theorem IsPoint.mono {history' : List Bundle} (h : IsPoint history chain t)
    (hsub : history ⊆ history') : IsPoint history' chain t := by
  rcases h with rfl | ⟨x, hx, hc, ht⟩
  · exact .inl rfl
  · exact .inr ⟨x, hsub hx, hc, ht⟩

theorem isPoint_of_mem {x : Bundle} (hx : x ∈ history) :
    IsPoint history x.info.chain x.info.timestamp := .inr ⟨x, hx, rfl, rfl⟩

/-- A point before a bundle is at most the one from which the bundle goes on. -/
theorem Unforked.le_prior (h : Unforked history) {x : Bundle} (hx : x ∈ history)
    (ht : IsPoint history x.info.chain t) (hlt : t < x.info.timestamp) : t ≤ x.prior := by
  rcases ht with rfl | ⟨y, hy, hc, rfl⟩
  · exact (h.linked x hx).nonneg
  · exact h.consecutive x hx y hy hc.symm hlt

theorem History.unforked (h : History history) : Unforked history := ⟨h.linked, h.consecutive⟩

/-- A bundle goes on from the point before it that is not before where it goes on from. -/
theorem History.prior_eq (h : History history) {x : Bundle} (hx : x ∈ history)
    (ht : IsPoint history x.info.chain t) (hlt : t < x.info.timestamp) (hle : x.prior ≤ t) :
    x.prior = t :=
  Std.le_antisymm hle (h.unforked.le_prior hx ht hlt)

/-- Whether a bundle may be written next: it goes on from the end of its chain, or begins the one
chain of its owner. -/
structure Extends (history : List Bundle) (b : Bundle) : Prop where
  oneChain : ∀ x ∈ history, x.info.medallion = b.info.medallion → x.info.chain = b.info.chain
  linked : IsPoint history b.info.chain b.prior
  last : ∀ x ∈ history, x.info.chain = b.info.chain → x.info.timestamp ≤ b.prior

theorem Extends.lt {b : Bundle} (h : Extends history b) (ht : IsPoint history b.info.chain t) :
    t < b.info.timestamp := by
  rcases ht with rfl | ⟨x, hx, hc, rfl⟩
  · exact b.timestamp_pos
  · exact Std.lt_of_le_of_lt (h.last x hx hc) b.prior_lt

theorem History.nil : History [] :=
  ⟨by simp, by simp, by simp, by simp⟩

/-- A history grows by what may be written next. -/
theorem History.extend (h : History history) {b : Bundle} (hb : Extends history b) :
    History (history ++ [b]) where
  oneChain x hx y hy hm := by
    rcases List.mem_append.mp hx with hx | hx <;> rcases List.mem_append.mp hy with hy | hy
    · exact h.oneChain x hx y hy hm
    · cases List.mem_singleton.mp hy
      exact hb.oneChain x hx hm
    · cases List.mem_singleton.mp hx
      exact (hb.oneChain y hy hm.symm).symm
    · rw [List.mem_singleton.mp hx, List.mem_singleton.mp hy]
  unique x hx y hy hc ht := by
    rcases List.mem_append.mp hx with hx | hx <;> rcases List.mem_append.mp hy with hy | hy
    · exact h.unique x hx y hy hc ht
    · -- the new bundle is later than every other one of its chain
      cases List.mem_singleton.mp hy
      have hlt := hb.lt (hc ▸ isPoint_of_mem hx)
      exact absurd ht (Std.ne_of_lt hlt)
    · cases List.mem_singleton.mp hx
      have hlt := hb.lt (hc ▸ isPoint_of_mem hy)
      exact absurd ht.symm (Std.ne_of_lt hlt)
    · rw [List.mem_singleton.mp hx, List.mem_singleton.mp hy]
  linked x hx := by
    rcases List.mem_append.mp hx with hx | hx
    · exact (h.linked x hx).mono (List.subset_append_left _ _)
    · cases List.mem_singleton.mp hx
      exact hb.linked.mono (List.subset_append_left _ _)
  consecutive x hx y hy hc hlt := by
    rcases List.mem_append.mp hx with hx | hx <;> rcases List.mem_append.mp hy with hy | hy
    · exact h.consecutive x hx y hy hc hlt
    · cases List.mem_singleton.mp hy
      have hlt' := hb.lt (hc ▸ isPoint_of_mem hx)
      exact absurd (Std.lt_trans hlt hlt') Std.lt_irrefl
    · cases List.mem_singleton.mp hx
      exact hb.last y hy hc.symm
    · rw [List.mem_singleton.mp hx, List.mem_singleton.mp hy] at hlt
      exact absurd hlt Std.lt_irrefl

end History

/-! ## Progress -/

/-- How far somebody has come on each chain. -/
abbrev Progress := ChainKey → Timestamp

namespace Progress

/-- The progress of somebody who has also reached a time on a chain. -/
def raise (r : Progress) (chain : ChainKey) (t : Timestamp) : Progress := fun c =>
  if c = chain ∧ r c < t then t else r c

variable {r r' : Progress} {chain : ChainKey} {t : Timestamp}

theorem le_raise (r : Progress) (chain : ChainKey) (t : Timestamp) (c : ChainKey) :
    r c ≤ r.raise chain t c := by
  unfold raise
  grind

theorem raise_self_ge (r : Progress) (chain : ChainKey) (t : Timestamp) :
    t ≤ r.raise chain t chain := by
  unfold raise
  grind

theorem raise_le (h : ∀ c, r c ≤ r' c) (ht : t ≤ r' chain) (c : ChainKey) :
    r.raise chain t c ≤ r' c := by
  unfold raise
  split
  · rename_i hc
    rw [hc.1]
    exact ht
  · exact h c

theorem raise_mono (h : ∀ c, r c ≤ r' c) (c : ChainKey) :
    r.raise chain t c ≤ r'.raise chain t c := by
  have := h c
  unfold raise
  grind

theorem raise_of_le (h : t ≤ r chain) : r.raise chain t = r := by
  funext c
  unfold raise
  grind

theorem raise_of_ne {c : ChainKey} (h : c ≠ chain) : r.raise chain t c = r c := by
  unfold raise
  grind

/-- A chain stands at the time reached if that is later than before. -/
theorem raise_self_cases (r : Progress) (chain : ChainKey) (t : Timestamp) :
    r.raise chain t chain = r chain ∧ t ≤ r chain ∨ r.raise chain t chain = t ∧ r chain < t := by
  unfold raise
  grind

theorem isPoint_raise {history : List Bundle} (h : ∀ c, IsPoint history c (r c))
    (ht : IsPoint history chain t) (c : ChainKey) : IsPoint history c (r.raise chain t c) := by
  unfold raise
  split
  · rename_i hc
    rw [hc.1]
    exact ht
  · exact h c

end Progress

/-! ## Messages on the way -/

/-- The progress of a recipient after a message. -/
def settle (r : Progress) : Message → Progress
  | .bundle bytes =>
    match Bundle.decode bytes with
    | .ok b => r.raise b.info.chain b.info.timestamp
    | .error _ => r
  | _ => r

/-- The progress of a recipient after some messages. -/
def settled (r : Progress) (messages : List Message) : Progress := messages.foldl settle r

/-- Whether a message can be taken in without a gap. -/
def Fits (r : Progress) : Message → Prop
  | .bundle bytes => ∀ b, Bundle.decode bytes = .ok b → b.prior ≤ r b.info.chain
  | _ => True

/-- Whether messages can be taken in one after the other without a gap. -/
def Deliverable (r : Progress) : List Message → Prop
  | [] => True
  | m :: rest => Fits r m ∧ Deliverable (settle r m) rest

/-- The message that carries a bundle. -/
def carrying (b : Bundle) : Message := .bundle b.bytes

/-- Whether a message is a greeting. -/
def Message.isGreeting : Message → Bool
  | greeting _ => true
  | _ => false

/-- Whether a message says what somebody of some progress may say. -/
def Backed (history : List Bundle) (r : Progress) : Message → Prop
  | .bundle bytes => ∃ b ∈ history, b.bytes = bytes ∧ b.info.timestamp ≤ r b.info.chain
  | .greeting bytes => bytes.length < 0xffffffffffffff00 ∧ ∃ tracker,
    ChainTracker.ofGreeting bytes = .ok tracker ∧ ∀ c,
      IsPoint history c (tracker.seenThrough c) ∧ tracker.seenThrough c ≤ r c
  | .ack chain t => IsPoint history chain t ∧ t ≤ r chain

section Messages

variable {r r' : Progress} {m : Message} {ms : List Message}

@[simp] theorem settle_bundle (r : Progress) (b : Bundle) :
    settle r (.bundle b.bytes) = r.raise b.info.chain b.info.timestamp := by
  rw [settle, b.decode_bytes]

theorem le_settle (r : Progress) (m : Message) (c : ChainKey) : r c ≤ settle r m c := by
  cases m with
  | bundle bytes =>
      simp only [settle]
      cases Bundle.decode bytes with
      | error e => exact Std.le_refl _
      | ok b => exact Progress.le_raise r _ _ c
  | greeting bytes => exact Std.le_refl _
  | ack chain t => exact Std.le_refl _

theorem settle_mono (h : ∀ c, r c ≤ r' c) (m : Message) (c : ChainKey) :
    settle r m c ≤ settle r' m c := by
  cases m with
  | bundle bytes =>
      simp only [settle]
      cases Bundle.decode bytes with
      | error e => exact h c
      | ok b => exact Progress.raise_mono h c
  | greeting bytes => exact h c
  | ack chain t => exact h c

theorem le_settled (r : Progress) (ms : List Message) (c : ChainKey) : r c ≤ settled r ms c := by
  induction ms generalizing r with
  | nil => exact Std.le_refl _
  | cons m rest ih => exact Std.le_trans (le_settle r m c) (ih (settle r m))

theorem settled_mono (h : ∀ c, r c ≤ r' c) (ms : List Message) (c : ChainKey) :
    settled r ms c ≤ settled r' ms c := by
  induction ms generalizing r r' with
  | nil => exact h c
  | cons m rest ih => exact ih (settle_mono h m)

theorem settled_append (r : Progress) (ms ns : List Message) :
    settled r (ms ++ ns) = settled (settled r ms) ns := List.foldl_append

theorem Fits.mono (h : Fits r m) (hle : ∀ c, r c ≤ r' c) : Fits r' m := by
  cases m with
  | bundle bytes => exact fun b hb => Std.le_trans (h b hb) (hle _)
  | greeting bytes => trivial
  | ack chain t => trivial

theorem Deliverable.mono (h : Deliverable r ms) (hle : ∀ c, r c ≤ r' c) : Deliverable r' ms := by
  induction ms generalizing r r' with
  | nil => trivial
  | cons m rest ih => exact ⟨h.1.mono hle, ih h.2 (settle_mono hle m)⟩

theorem deliverable_append {ns : List Message} :
    Deliverable r (ms ++ ns) ↔ Deliverable r ms ∧ Deliverable (settled r ms) ns := by
  induction ms generalizing r with
  | nil => exact ⟨fun h => ⟨trivial, h⟩, fun h => h.2⟩
  | cons m rest ih =>
      constructor
      · rintro ⟨hfits, hrest⟩
        obtain ⟨hrest, hns⟩ := ih.mp hrest
        exact ⟨⟨hfits, hrest⟩, hns⟩
      · rintro ⟨⟨hfits, hrest⟩, hns⟩
        exact ⟨hfits, ih.mpr ⟨hrest, hns⟩⟩

theorem Backed.mono {history history' : List Bundle} (h : Backed history r m)
    (hsub : history ⊆ history') (hle : ∀ c, r c ≤ r' c) : Backed history' r' m := by
  cases m with
  | bundle bytes =>
      obtain ⟨b, hb, hbytes, ht⟩ := h
      exact ⟨b, hsub hb, hbytes, Std.le_trans ht (hle _)⟩
  | greeting bytes =>
      obtain ⟨hlen, tracker, htracker, hpoints⟩ := h
      exact ⟨hlen, tracker, htracker, fun c =>
        ⟨(hpoints c).1.mono hsub, Std.le_trans (hpoints c).2 (hle c)⟩⟩
  | ack chain t => exact ⟨h.1.mono hsub, Std.le_trans h.2 (hle chain)⟩

end Messages

/-! ## Bundles in order -/

theorem le_settled_of_mem {bs : List Bundle} {b : Bundle} (h : b ∈ bs) (r : Progress) :
    b.info.timestamp ≤ settled r (bs.map carrying) b.info.chain := by
  induction bs generalizing r with
  | nil => cases h
  | cons x rest ih =>
      rcases List.mem_cons.mp h with rfl | h
      · have hself := Progress.raise_self_ge r b.info.chain b.info.timestamp
        rw [← settle_bundle] at hself
        exact Std.le_trans hself (le_settled _ (rest.map carrying) _)
      · exact ih h _

/-- Bundles that stand in the order of their times can be taken in by somebody who has the
predecessors that are not among them. -/
theorem deliverable_of_pairwise {bs : List Bundle} {r : Progress}
    (hsorted : bs.Pairwise fun x y => x.info.timestamp ≤ y.info.timestamp)
    (hprior : ∀ x ∈ bs, x.prior ≤ r x.info.chain
      ∨ ∃ y ∈ bs, y.info.chain = x.info.chain ∧ y.info.timestamp = x.prior) :
    Deliverable r (bs.map carrying) := by
  -- the recipient takes in the first bundle and then has one predecessor more
  induction bs generalizing r with
  | nil => trivial
  | cons x rest ih =>
      obtain ⟨hx, hrest⟩ := List.pairwise_cons.mp hsorted
      refine ⟨?_, ih hrest fun z hz => ?_⟩
      · intro b hb
        rw [x.decode_bytes] at hb
        cases hb
        rcases hprior x List.mem_cons_self with h | ⟨y, hy, -, ht⟩
        · exact h
        · -- No bundle of the list is older than its first.
          have hle : x.info.timestamp ≤ y.info.timestamp := by
            rcases List.mem_cons.mp hy with rfl | hy
            · exact Std.le_refl _
            · exact hx y hy
          exact absurd (Std.lt_of_le_of_lt (ht ▸ hle) x.prior_lt) Std.lt_irrefl
      · rw [carrying, settle_bundle]
        rcases hprior z (List.mem_cons_of_mem _ hz) with h | ⟨y, hy, hc, ht⟩
        · exact .inl (Std.le_trans h (Progress.le_raise r _ _ _))
        · rcases List.mem_cons.mp hy with rfl | hy
          · left
            rw [← ht, ← hc]
            exact Progress.raise_self_ge r _ _
          · exact .inr ⟨y, hy, hc, ht⟩

end GossipStore
