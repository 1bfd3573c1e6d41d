import GossipStore.Gossip.AuthToken

set_option autoImplicit false

/-! # Tokens survive the list of offers

An offer carries a token if it shows the marked token in hexadecimal, in digits of either case
(`AuthToken.Carries`), and the token of a list is that of the first offer that carries one
(`ofOffers?_eq_some_iff`). A token is marked before it is offered, unless it comes with its mark, and
one mark is taken off again. So what arrives is the token without its mark, whatever stands in front
of the offer, provided that nothing there carries a token itself (`token_survives`).
-/

namespace GossipStore

/-! ## Digits of either case -/

namespace Hex

theorem toNat_toLower (c : Char) :
    c.toLower.toNat = if 65 ≤ c.toNat ∧ c.toNat ≤ 90 then c.toNat + 32 else c.toNat := by
  unfold Char.toLower
  split
  · rename_i h
    have hupper : 65 ≤ c.toNat ∧ c.toNat ≤ 90 := h
    have hadd : (32 : UInt32).toNat = 32 := rfl
    rw [if_pos hupper]
    show (c.val + 32).toNat = c.val.toNat + 32
    rw [UInt32.toNat_add]
    have hle : c.val.toNat ≤ 90 := hupper.2
    omega
  · rename_i h
    have hother : ¬ (65 ≤ c.toNat ∧ c.toNat ≤ 90) := h
    rw [if_neg hother]

theorem digitValue?_eq (c : Char) : digitValue? c =
    if 48 ≤ c.toNat ∧ c.toNat ≤ 57 then some (c.toNat - 48)
    else if 97 ≤ c.toNat ∧ c.toNat ≤ 102 then some (c.toNat - 87)
    else if 65 ≤ c.toNat ∧ c.toNat ≤ 70 then some (c.toNat - 55)
    else none := rfl

/-- The case of a digit does not matter. -/
theorem digitValue?_toLower (c : Char) : digitValue? c.toLower = digitValue? c := by
  rw [digitValue?_eq, digitValue?_eq, toNat_toLower]
  by_cases h : 65 ≤ c.toNat ∧ c.toNat ≤ 90
  · simp only [if_pos h]
    split
    · omega
    · split
      · rw [if_neg (by omega), if_neg (by omega), if_pos (by omega)]
        congr 1
      · rw [if_neg (by omega), if_neg (by omega), if_neg (by omega), if_neg (by omega)]
  · simp only [if_neg h]

/-- A character with a value is the digit of that value, up to its case. -/
theorem toLower_of_digitValue? {c : Char} {n : Nat} (h : digitValue? c = some n) :
    n < 16 ∧ c.toLower = lowerDigit n := by
  have hnotUpper := toNat_toLower c
  have hchar : c.toLower = Char.ofNat c.toLower.toNat := (Char.ofNat_toNat c.toLower).symm
  rw [← digitValue?_toLower, digitValue?_eq] at h
  rw [hchar, lowerDigit]
  split at h
  · obtain rfl := Option.some.inj h
    refine ⟨by omega, ?_⟩
    rw [if_pos (by omega)]
    congr 1
    omega
  split at h
  · obtain rfl := Option.some.inj h
    refine ⟨by omega, ?_⟩
    rw [if_neg (by omega)]
    congr 1
    omega
  split at h
  · -- no upper-case letter is left
    split at hnotUpper <;> omega
  · cases h

theorem decodeChars?_map_toLower (cs : List Char) :
    decodeChars? (cs.map Char.toLower) = decodeChars? cs := by
  fun_induction decodeChars? cs with
  | case1 => rfl
  | case2 c => rfl
  | case3 hi lo rest h l b hrest hlo hhi ih =>
      rw [hrest] at ih
      simp only [List.map_cons, decodeChars?, digitValue?_toLower, ih, hhi, hlo]
  | case4 hi lo rest hnone ih =>
      simp only [List.map_cons, decodeChars?, digitValue?_toLower, ih]

/-- Reading accepts exactly the digits of a byte string, in either case. -/
theorem decodeChars?_eq_some_iff {cs : List Char} {b : Bytes} :
    decodeChars? cs = some b ↔ cs.map Char.toLower = encodeChars b := by
  constructor
  · intro h
    fun_induction decodeChars? cs generalizing b with
    | case1 =>
        obtain rfl := Option.some.inj h
        rfl
    | case2 c => cases h
    | case3 hi lo rest x y bytes hrest hlo hhi ih =>
        obtain rfl := Option.some.inj h
        obtain ⟨hx, hhi⟩ := toLower_of_digitValue? hhi
        obtain ⟨hy, hlo⟩ := toLower_of_digitValue? hlo
        have hbyte : (UInt8.ofNat (16 * x + y)).toNat = 16 * x + y := by
          rw [UInt8.toNat_ofNat']
          omega
        have hfirst : (16 * x + y) / 16 = x := by omega
        have hsecond : (16 * x + y) % 16 = y := by omega
        rw [List.map_cons, List.map_cons, ih hrest, hhi, hlo, encodeChars, encodeChars,
          List.flatMap_cons, hbyte, hfirst, hsecond]
        rfl
    | case4 hi lo rest hnone ih => cases h
  · intro h
    rw [← decodeChars?_map_toLower, h, decodeChars?_encodeChars]

end Hex

namespace AuthToken

/-! ## Marks -/

theorem dropMark?_eq_some_iff {mark cs rest : List Char} :
    dropMark? mark cs = some rest ↔ cs = mark ++ rest := by
  unfold dropMark?
  constructor
  · intro h
    split at h
    · rename_i hmark
      obtain ⟨tail, rfl⟩ := List.isPrefixOf_iff_prefix.mp hmark
      rw [List.drop_left] at h
      rw [Option.some.inj h]
    · cases h
  · rintro rfl
    have hmark : mark.isPrefixOf (mark ++ rest) = true :=
      List.isPrefixOf_iff_prefix.mpr (List.prefix_append mark rest)
    rw [if_pos hmark, List.drop_left]

/-- A token without its mark, if it has one. Of several marks the first is taken off. -/
def bare (token : String) : String :=
  if mark.isPrefixOf token.toList then String.ofList (token.toList.drop mark.length) else token

/-- However a token comes, it is offered with its mark in front of what is left of it. -/
theorem toList_marked (token : String) : (marked token).toList = mark ++ (bare token).toList := by
  unfold marked bare
  split
  · rename_i hmark
    obtain ⟨rest, hrest⟩ := List.isPrefixOf_iff_prefix.mp hmark
    rw [← hrest, List.drop_left, String.toList_ofList]
  · rw [String.toList_ofList]

/-! ## Offers -/

/-- Whether an offer carries a token: behind its own mark it shows the bytes of the marked token, in
digits of either case. -/
def Carries (offer token : String) : Prop :=
  ∃ digits, offer.toList = hexMark ++ digits
    ∧ digits.map Char.toLower
      = Hex.encodeChars (Bytes.ofText (String.ofList (mark ++ token.toList)))

/-- **A token is found in an offer that carries it**, and in no other one. -/
theorem ofOffer?_eq_some_iff {s token : String} : ofOffer? s = some token ↔ Carries s token := by
  unfold ofOffer? Carries
  simp only [Option.bind_eq_bind, Option.bind_eq_some_iff, dropMark?_eq_some_iff,
    Hex.decodeChars?_eq_some_iff, Bytes.toText?_eq_some_iff, Option.pure_def, Option.some.injEq]
  constructor
  · rintro ⟨digits, hoffer, bytes, hbytes, text, rfl, rest, hrest, rfl⟩
    refine ⟨digits, hoffer, ?_⟩
    rw [String.toList_ofList, ← hrest, String.ofList_toList]
    exact hbytes
  · rintro ⟨digits, hoffer, hdigits⟩
    exact ⟨digits, hoffer, _, hdigits, _, rfl, token.toList, String.toList_ofList,
      String.ofList_toList⟩

theorem carries_offer (token : String) : Carries (offer token) (bare token) := by
  refine ⟨Hex.encodeChars (Bytes.ofText (marked token)), ?_, ?_⟩
  · rw [offer, String.toList_ofList, Hex.encode, String.toList_ofList]
  · rw [← toList_marked, String.ofList_toList]
    exact Hex.decodeChars?_eq_some_iff.mp (Hex.decodeChars?_encodeChars _)

/-- **The token of a list is that of the first offer that carries one.** -/
theorem ofOffers?_eq_some_iff {offers : List String} {token : String} :
    ofOffers? offers = some token ↔ ∃ before s after, offers = before ++ s :: after
      ∧ Carries s token ∧ ∀ noise ∈ before, ∀ other, ¬ Carries noise other := by
  have hnone (noise : String) : ofOffer? noise = none ↔ ∀ other, ¬ Carries noise other := by
    simp only [Option.eq_none_iff_forall_ne_some, ne_eq, ofOffer?_eq_some_iff]
  simp only [ofOffers?, List.findSome?_eq_some_iff, ofOffer?_eq_some_iff, hnone]

theorem not_carries_protocolName (token : String) : ¬ Carries protocolName token := by
  rw [← ofOffer?_eq_some_iff]
  have hnone : ofOffer? protocolName = none := by decide
  rw [hnone]
  exact nofun

/-- **A token survives the list of offers.** What is read from the offers of a client is its token
without the mark. It is the same in every list in which nothing before the offer of the token carries
a token, whatever else stands there or behind it. -/
theorem token_survives (token : String) :
    ofOffers? (offers (some token)) = some (bare token)
    ∧ ∀ before after : List String, (∀ noise ∈ before, ∀ other, ¬ Carries noise other) →
      ofOffers? (before ++ offer token :: after) = some (bare token) := by
  have hlist (before after : List String)
      (hnoise : ∀ noise ∈ before, ∀ other, ¬ Carries noise other) :
      ofOffers? (before ++ offer token :: after) = some (bare token) :=
    ofOffers?_eq_some_iff.mpr ⟨before, offer token, after, rfl, carries_offer token, hnoise⟩
  refine ⟨?_, hlist⟩
  show ofOffers? ([protocolName] ++ [offer token]) = some (bare token)
  refine hlist [protocolName] [] fun noise hnoise other => ?_
  rw [List.mem_singleton.mp hnoise]
  exact not_carries_protocolName other

/-- A token that begins with two marks and ends in a character of three bytes, behind bytes that are
no text, a text without the mark, digits that do not come in pairs and digits without their mark. -/
theorem token_survives_afterNoise :
    let noise := ["0xff", "0x6869", "0x746f6", "746F6B656E2061", ""]
    (∀ s ∈ noise, ∀ other, ¬ Carries s other)
      ∧ ofOffers? (noise ++ offer "token token €" :: ["0x746f6b656e2061"]) = some "token €" := by
  intro noise
  have hnone : ∀ s ∈ noise, ofOffer? s = none := by decide
  have hnoise : ∀ s ∈ noise, ∀ other, ¬ Carries s other := by
    intro s hs other hcarries
    have hsome := ofOffer?_eq_some_iff.mpr hcarries
    rw [hnone s hs] at hsome
    cases hsome
  refine ⟨hnoise, ?_⟩
  rw [(token_survives "token token €").2 noise _ hnoise]
  rfl

/-- Digits may come in either case, and an empty token is a token. -/
example : ofOffers? ["gink", "0xzz", "0x746F6b656E20", "0x746f6b656e2061"] = some "" := by decide

end AuthToken

end GossipStore
