import GossipStore.Bundle.Format
import GossipStore.Proofs.Cbor.Form

set_option autoImplicit false

/-! # Fields of bundles and changes

Bundles and changes are maps from small numbers to fields. Two things are needed of such a map:
what a look-up finds among the fields that were written (`lookup?_field` and the lemmas beside it),
and that the fields stand in the order of their numbers, so that writing them sorts nothing
(`Fields`). Every field is an item that its own reader gives back (`toInt64_ofInt64`,
`toMuid_ofMuid` and so on).
-/

namespace GossipStore.BundleFormat

open Cbor (Value Plain Ordered)

/-! ## Look-ups -/

theorem toInt?_ofNat {k : Nat} (hk : k < 0x10000000000000000) :
    (Value.ofNat k).toInt? = some (k : Int) := by
  simp only [Value.ofNat, Value.toInt?, UInt64.toNat_ofNat']
  congr 2
  exact Nat.mod_eq_of_lt hk

theorem lookup?_append (l₁ l₂ : List (Value × Value)) (key : Nat) :
    Value.lookup? (l₁ ++ l₂) key = (Value.lookup? l₁ key).or (Value.lookup? l₂ key) := by
  simp only [Value.lookup?, List.find?_append]
  cases l₁.find? _ <;> rfl

theorem lookup?_field {k : Nat} (hk : k < 0x10000000000000000) (v : Value) (key : Nat) :
    Value.lookup? (field k v) key = if k = key then some v else none := by
  simp only [Value.lookup?, field, List.find?_cons, List.find?_nil, toInt?_ofNat hk]
  by_cases h : k = key
  · simp [h]
  · have hne : (some (k : Int) == some (key : Int)) = false := by
      simp only [beq_eq_false_iff_ne, ne_eq, Option.some.injEq]
      omega
    simp [h, hne]

theorem lookup?_optionalField {α : Type} {k : Nat} (hk : k < 0x10000000000000000)
    (item : α → Value) (o : Option α) (key : Nat) :
    Value.lookup? (optionalField k item o) key = if k = key then o.map item else none := by
  cases o with
  | none => simp [optionalField, Value.lookup?]
  | some x => rw [optionalField, lookup?_field hk, Option.map_some]

theorem lookup?_flagField {k : Nat} (hk : k < 0x10000000000000000) (b : Bool) (key : Nat) :
    Value.lookup? (flagField k b) key = if k = key ∧ b = true then some (.bool true) else none := by
  cases b with
  | false => simp [flagField, Value.lookup?]
  | true => simp [flagField, lookup?_field hk]

/-! ## Reading fields -/

theorem required_of_lookup? {α : Type} {entries : List (Value × Value)} {key : Nat}
    {absent : Malformation} {item : Value → Except Malformation α} {v : Value}
    (h : Value.lookup? entries key = some v) : required entries key absent item = item v := by
  rw [required, h]

theorem optional_of_lookup? {α : Type} {entries : List (Value × Value)} {key : Nat}
    {item : Value → Except Malformation α} {write : α → Value} {o : Option α}
    (h : Value.lookup? entries key = o.map write) (hitem : ∀ x, item (write x) = .ok x) :
    optional entries key item = .ok o := by
  rw [optional, h]
  cases o with
  | none => rfl
  | some x => simp [hitem, Except.map]

theorem flag_of_lookup? {entries : List (Value × Value)} {key : Nat} {b : Bool}
    (h : Value.lookup? entries key = if b = true then some (.bool true) else none) :
    flag entries key = .ok b := by
  rw [flag, optional, h]
  cases b <;> rfl

/-! ## Reading items -/

theorem toInt?_ofInt {i : Int} (h : -0x10000000000000000 ≤ i) (h' : i < 0x10000000000000000) :
    (Value.ofInt i).toInt? = some i := by
  cases i with
  | ofNat n =>
      have hn : n < 0x10000000000000000 := Int.ofNat_lt.mp h'
      simp only [Value.ofInt, Value.toInt?, UInt64.toNat_ofNat', Nat.mod_eq_of_lt hn]
      rfl
  | negSucc n =>
      have hn : n < 0x10000000000000000 := by omega
      simp only [Value.ofInt, Value.toInt?, UInt64.toNat_ofNat', Nat.mod_eq_of_lt hn]
      congr 1
      omega

theorem toIntIn_ofInt {lo hi i : Int} (name : Field) (h : -0x10000000000000000 ≤ i)
    (h' : i < 0x10000000000000000) (hlo : lo ≤ i) (hhi : i ≤ hi) :
    toIntIn lo hi name (.ofInt i) = .ok i := by
  simp [toIntIn, toInt?_ofInt h h', hlo, hhi]

theorem toIntIn_ofNat {hi : Int} {k : Nat} (name : Field) (hk : k < 0x10000000000000000)
    (hhi : (k : Int) ≤ hi) : toIntIn 0 hi name (.ofNat k) = .ok (k : Int) := by
  simp [toIntIn, toInt?_ofNat hk, hhi]

theorem toInt64_ofInt64 (name : Field) (n : Int64) : toInt64 name (ofInt64 n) = .ok n := by
  have hlo := n.le_toInt
  have hhi := n.toInt_lt
  rw [toInt64, ofInt64, toIntIn_ofInt name (by omega) (by omega) (by omega) (by omega)]
  simp [Except.map]

theorem toUInt8_ofNat (name : Field) (n : UInt8) : toUInt8 name (.ofNat n.toNat) = .ok n := by
  have hn := n.toNat_lt
  rw [toUInt8, toIntIn_ofNat name (by omega) (by omega)]
  simp [Except.map]

theorem toUInt32_ofNat (name : Field) (n : UInt32) : toUInt32 name (.ofNat n.toNat) = .ok n := by
  have hn := n.toNat_lt
  rw [toUInt32, toIntIn_ofNat name (by omega) (by omega)]
  simp [Except.map]

theorem toMuid_ofMuid (m : Muid) : toMuid (ofMuid m) = .ok m := by
  simp [toMuid, ofMuid, toInt64_ofInt64, toUInt32_ofNat, bind, Except.bind, pure, Except.pure]

theorem toScalar_ofScalar (k : ScalarKey) : toScalar (ofScalar k) = .ok k := by
  cases k with
  | integer n =>
      -- it is read by the reader for words, whichever sign it has
      have h := toInt64_ofInt64 .key n
      rw [ofScalar]
      unfold ofInt64 Value.ofInt at h ⊢
      split at h <;> simp [toScalar, h, bind, Except.bind, pure, Except.pure]
  | text s => rfl
  | bytes b => rfl

theorem toPair_ofPair (p : Muid × Muid) :
    toPair (.array [ofMuid p.1, ofMuid p.2]) = .ok p := by
  simp [toPair, toMuid_ofMuid, bind, Except.bind, pure, Except.pure]

/-! ## Fields in order -/

/-- The form of a small number is one byte. -/
theorem form_ofNat {k : Nat} (hk : k < 24) : (Value.ofNat k).form = [UInt8.ofNat k] := by
  have hmod : (UInt64.ofNat k).toNat = k := by
    rw [UInt64.toNat_ofNat']
    omega
  simp [Value.ofNat, Value.form, hmod, Cbor.head, hk, Cbor.unsignedType]

theorem isLE_compare_form {k l : Nat} (hkl : k ≤ l) (hl : l < 24) :
    (compare (Value.ofNat k).form (Value.ofNat l).form).isLE := by
  rw [form_ofNat (by omega), form_ofNat hl]
  -- two single bytes are left, and few of them
  revert k
  have key : ∀ l < 24, ∀ k < l + 1,
      (compare [UInt8.ofNat k] [UInt8.ofNat l]).isLE = true := by decide
  exact fun {k} hkl => key l hl k (by omega)

/-- Fields whose numbers rise from `lo` on and stay below `hi`, and whose items are plain, nested
at most `d` deep and in order. -/
structure Fields (d lo hi : Nat) (l : List (Value × Value)) : Prop where
  numbered : ∀ e ∈ l, ∃ k, lo ≤ k ∧ k < hi ∧ e.1 = .ofNat k
  ascending : l.Pairwise fun e f => (compare e.1.form f.1.form).isLE
  plain : ∀ e ∈ l, Plain d e.2
  ordered : ∀ e ∈ l, Ordered e.2

namespace Fields

variable {d lo m hi k : Nat}

theorem nil (d lo hi : Nat) : Fields d lo hi [] :=
  ⟨by simp, .nil, by simp, by simp⟩

theorem append {l₁ l₂ : List (Value × Value)} (h₁ : Fields d lo m l₁) (h₂ : Fields d m hi l₂)
    (hlo : lo ≤ m) (hm : m ≤ hi) (hhi : hi ≤ 24) : Fields d lo hi (l₁ ++ l₂) where
  numbered e he := by
    rcases List.mem_append.mp he with he | he
    · obtain ⟨k, h, h', rfl'⟩ := h₁.numbered e he
      exact ⟨k, h, by omega, rfl'⟩
    · obtain ⟨k, h, h', rfl'⟩ := h₂.numbered e he
      exact ⟨k, by omega, h', rfl'⟩
  ascending := by
    refine List.pairwise_append.mpr ⟨h₁.ascending, h₂.ascending, fun e he f hf => ?_⟩
    -- `m` separates the numbers on the left from those on the right
    obtain ⟨k, -, hk, hke⟩ := h₁.numbered e he
    obtain ⟨l, hl, hl', hlf⟩ := h₂.numbered f hf
    rw [hke, hlf]
    exact isLE_compare_form (by omega) (by omega)
  plain e he := (List.mem_append.mp he).elim (h₁.plain e) (h₂.plain e)
  ordered e he := (List.mem_append.mp he).elim (h₁.ordered e) (h₂.ordered e)

theorem field {v : Value} (hlo : lo ≤ k) (hhi : k < hi) (hp : Plain d v) (ho : Ordered v) :
    Fields d lo hi (field k v) where
  numbered := by
    simp only [BundleFormat.field, List.mem_singleton]
    rintro e rfl
    exact ⟨k, hlo, hhi, rfl⟩
  ascending := List.pairwise_singleton _ _
  plain := by
    simp only [BundleFormat.field, List.mem_singleton]
    rintro e rfl
    exact hp
  ordered := by
    simp only [BundleFormat.field, List.mem_singleton]
    rintro e rfl
    exact ho

theorem optionalField {α : Type} {item : α → Value} (hlo : lo ≤ k) (hhi : k < hi)
    (hp : ∀ x, Plain d (item x)) (ho : ∀ x, Ordered (item x)) (o : Option α) :
    Fields d lo hi (optionalField k item o) := by
  cases o with
  | none => exact .nil d lo hi
  | some x => exact .field hlo hhi (hp x) (ho x)

theorem flagField (hlo : lo ≤ k) (hhi : k < hi) (b : Bool) :
    Fields d lo hi (flagField k b) := by
  cases b with
  | false => exact .nil d lo hi
  | true => exact .field hlo hhi (.bool d true) (.bool true)

theorem plain_map {l : List (Value × Value)} (h : Fields d lo hi l) : Plain (d + 1) (.map l) := by
  refine .map (fun e he => ?_) h.plain
  obtain ⟨k, -, -, hk⟩ := h.numbered e he
  rw [hk]
  exact .unsigned d _

theorem ordered_map {l : List (Value × Value)} (h : Fields d lo hi l) : Ordered (.map l) := by
  refine .map (fun e he => ?_) h.ordered h.ascending
  obtain ⟨k, -, -, hk⟩ := h.numbered e he
  rw [hk]
  exact .unsigned _

end Fields

/-! ## Items in order -/

theorem plain_ofInt64 (d : Nat) (n : Int64) : Plain d (ofInt64 n) := by
  unfold ofInt64 Value.ofInt
  split
  · exact .unsigned d _
  · exact .negative d _

theorem ordered_ofInt64 (n : Int64) : Ordered (ofInt64 n) := by
  unfold ofInt64 Value.ofInt
  split
  · exact .unsigned _
  · exact .negative _

theorem plain_ofMuid (d : Nat) (m : Muid) : Plain (d + 1) (ofMuid m) := by
  refine .array fun v hv => ?_
  simp only [List.mem_cons, List.not_mem_nil, or_false] at hv
  rcases hv with rfl | rfl | rfl
  · exact plain_ofInt64 d _
  · exact plain_ofInt64 d _
  · exact .unsigned d _

theorem ordered_ofMuid (m : Muid) : Ordered (ofMuid m) := by
  refine .array fun v hv => ?_
  simp only [List.mem_cons, List.not_mem_nil, or_false] at hv
  rcases hv with rfl | rfl | rfl
  · exact ordered_ofInt64 _
  · exact ordered_ofInt64 _
  · exact .unsigned _

theorem plain_ofPair (d : Nat) (p : Muid × Muid) :
    Plain (d + 2) (.array [ofMuid p.1, ofMuid p.2]) := by
  refine .array fun v hv => ?_
  simp only [List.mem_cons, List.not_mem_nil, or_false] at hv
  rcases hv with rfl | rfl
  · exact plain_ofMuid d _
  · exact plain_ofMuid d _

theorem ordered_ofPair (p : Muid × Muid) : Ordered (.array [ofMuid p.1, ofMuid p.2]) := by
  refine .array fun v hv => ?_
  simp only [List.mem_cons, List.not_mem_nil, or_false] at hv
  rcases hv with rfl | rfl
  · exact ordered_ofMuid _
  · exact ordered_ofMuid _

theorem plain_ofScalar (d : Nat) (k : ScalarKey) : Plain d (ofScalar k) := by
  cases k with
  | integer n => exact plain_ofInt64 d n
  | text s => exact .text d s
  | bytes b => exact .bytes d b

theorem ordered_ofScalar (k : ScalarKey) : Ordered (ofScalar k) := by
  cases k with
  | integer n => exact ordered_ofInt64 n
  | text s => exact .text s
  | bytes b => exact .bytes b

end GossipStore.BundleFormat
