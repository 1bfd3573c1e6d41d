import GossipStore.Cbor.Reader
import GossipStore.Cbor.Writer

set_option autoImplicit false

/-! # The written form of an item

`Value.form` writes an item with shortest heads and definite lengths and keeps map entries in the
order in which they stand. It is total, so it is what the two sides of the format are compared
with. Reading a form gives the item back whatever bytes follow, if its lengths can be counted
(`readItem_form_of_counted`), so an item is known by its form (`eq_of_form_eq`).
-/

namespace GossipStore.Cbor

/-! ## Forms -/

mutual

/-- The bytes of an item with shortest heads. Numbers with a point and tags have none. -/
def Value.form : Value → Bytes
  | .unsigned n => head unsignedType n.toNat
  | .negative n => head negativeType n.toNat
  | .bytes b => head bytesType b.length ++ b
  | .text s => head textType (Bytes.ofText s).length ++ Bytes.ofText s
  | .array items => head arrayType items.length ++ formItems items
  | .map entries => head mapType entries.length ++ formEntries entries
  | .bool b => [if b then 0xf5 else 0xf4]
  | .null => [0xf6]
  | .float _ => []
  | .tag _ _ => []

/-- The forms of the items of an array, one after another. -/
def formItems : List Value → Bytes
  | [] => []
  | v :: rest => v.form ++ formItems rest

/-- The forms of the entries of a map, one after another. -/
def formEntries : List (Value × Value) → Bytes
  | [] => []
  | (k, v) :: rest => k.form ++ v.form ++ formEntries rest

end

/-- Items without floating point numbers and tags in which arrays and maps are nested at most
`d` deep. -/
inductive Plain : (d : Nat) → Value → Prop where
  | unsigned (d : Nat) (n : UInt64) : Plain d (.unsigned n)
  | negative (d : Nat) (n : UInt64) : Plain d (.negative n)
  | bytes (d : Nat) (b : Bytes) : Plain d (.bytes b)
  | text (d : Nat) (s : String) : Plain d (.text s)
  | bool (d : Nat) (b : Bool) : Plain d (.bool b)
  | null (d : Nat) : Plain d .null
  | array {d : Nat} {items : List Value} (each : ∀ v ∈ items, Plain d v) :
      Plain (d + 1) (.array items)
  | map {d : Nat} {entries : List (Value × Value)} (keys : ∀ e ∈ entries, Plain d e.1)
      (values : ∀ e ∈ entries, Plain d e.2) : Plain (d + 1) (.map entries)

/-- Items whose lengths can be counted in heads: the number of the bytes of a string, of the items of
an array and of the entries of a map is a word of 64 bits. -/
inductive Counted : Value → Prop where
  | unsigned (n : UInt64) : Counted (.unsigned n)
  | negative (n : UInt64) : Counted (.negative n)
  | bytes {b : Bytes} (length : b.length < 0x10000000000000000) : Counted (.bytes b)
  | text {s : String} (length : (Bytes.ofText s).length < 0x10000000000000000) :
      Counted (.text s)
  | bool (b : Bool) : Counted (.bool b)
  | null : Counted .null
  | array {items : List Value} (length : items.length < 0x10000000000000000)
      (each : ∀ v ∈ items, Counted v) : Counted (.array items)
  | map {entries : List (Value × Value)} (length : entries.length < 0x10000000000000000)
      (keys : ∀ e ∈ entries, Counted e.1) (values : ∀ e ∈ entries, Counted e.2) :
      Counted (.map entries)

/-- Items in which the entries of every map stand in the order of their written keys. -/
inductive Ordered : Value → Prop where
  | unsigned (n : UInt64) : Ordered (.unsigned n)
  | negative (n : UInt64) : Ordered (.negative n)
  | bytes (b : Bytes) : Ordered (.bytes b)
  | text (s : String) : Ordered (.text s)
  | bool (b : Bool) : Ordered (.bool b)
  | null : Ordered .null
  | array {items : List Value} (each : ∀ v ∈ items, Ordered v) : Ordered (.array items)
  | map {entries : List (Value × Value)} (keys : ∀ e ∈ entries, Ordered e.1)
      (values : ∀ e ∈ entries, Ordered e.2)
      (ascending : entries.Pairwise fun e f => (compare e.1.form f.1.form).isLE) :
      Ordered (.map entries)

/-! ## Counting -/

theorem counted_bytes_iff {b : Bytes} :
    Counted (.bytes b) ↔ b.length < 0x10000000000000000 :=
  ⟨fun | .bytes hlen => hlen, .bytes⟩

theorem counted_text_iff {s : String} :
    Counted (.text s) ↔ (Bytes.ofText s).length < 0x10000000000000000 :=
  ⟨fun | .text hlen => hlen, .text⟩

theorem counted_array_iff {items : List Value} :
    Counted (.array items)
      ↔ items.length < 0x10000000000000000 ∧ ∀ v ∈ items, Counted v :=
  ⟨fun | .array hlen each => ⟨hlen, each⟩, fun h => .array h.1 h.2⟩

theorem counted_map_iff {entries : List (Value × Value)} :
    Counted (.map entries)
      ↔ entries.length < 0x10000000000000000 ∧ ∀ e ∈ entries, Counted e.1 ∧ Counted e.2 :=
  ⟨fun | .map hlen keys values => ⟨hlen, fun e he => ⟨keys e he, values e he⟩⟩,
    fun h => .map h.1 (fun e he => (h.2 e he).1) fun e he => (h.2 e he).2⟩

/-! ## Lengths -/

theorem head_ne_nil (major n : Nat) : head major n ≠ [] := by
  unfold head
  split <;> try split <;> try split <;> try split
  all_goals simp

theorem length_head_pos (major n : Nat) : 0 < (head major n).length :=
  List.length_pos_iff.mpr (head_ne_nil major n)

theorem length_head_le (major n : Nat) : (head major n).length ≤ 9 := by
  unfold head
  -- a first byte, and an argument of none, one, two, four or eight bytes
  split
  · simp
  split
  · simp [Bytes.length_ofNat]
  split
  · simp [Bytes.length_ofNat]
  split <;> simp [Bytes.length_ofNat]

/-- A plain item takes up at least one byte. -/
theorem length_form_pos {d : Nat} {v : Value} (h : Plain d v) : 0 < v.form.length := by
  cases h with
  | bool d b => cases b <;> simp [Value.form]
  | null d => simp [Value.form]
  | _ =>
      have hhead := length_head_pos
      simp only [Value.form, List.length_append]
      first
        | exact hhead _ _
        | exact Nat.add_pos_left (hhead _ _) _

theorem formItems_append (l₁ l₂ : List Value) :
    formItems (l₁ ++ l₂) = formItems l₁ ++ formItems l₂ := by
  induction l₁ with
  | nil => simp [formItems]
  | cons v rest ih => simp [formItems, ih]

theorem formEntries_append (l₁ l₂ : List (Value × Value)) :
    formEntries (l₁ ++ l₂) = formEntries l₁ ++ formEntries l₂ := by
  induction l₁ with
  | nil => simp [formEntries]
  | cons e rest ih => simp [formEntries, ih]

theorem length_le_formItems {d : Nat} {items : List Value} (h : ∀ v ∈ items, Plain d v) :
    items.length ≤ (formItems items).length := by
  induction items with
  | nil => simp
  | cons v rest ih =>
      have hv : 0 < v.form.length := length_form_pos (h v (by simp))
      have hrest := ih fun w hw => h w (by simp [hw])
      simp only [formItems, List.length_append, List.length_cons]
      omega

theorem length_le_formEntries {d : Nat} {entries : List (Value × Value)}
    (h : ∀ e ∈ entries, Plain d e.1) : entries.length ≤ (formEntries entries).length := by
  induction entries with
  | nil => simp
  | cons e rest ih =>
      have he : 0 < e.1.form.length := length_form_pos (h e (by simp))
      have hrest := ih fun f hf => h f (by simp [hf])
      simp only [formEntries, List.length_append, List.length_cons]
      omega

theorem form_length_le_formItems {items : List Value} {v : Value} (h : v ∈ items) :
    v.form.length ≤ (formItems items).length := by
  obtain ⟨before, after, rfl⟩ := List.append_of_mem h
  simp only [formItems_append, formItems, List.length_append]
  omega

theorem form_length_le_formEntries {entries : List (Value × Value)} {e : Value × Value}
    (h : e ∈ entries) :
    e.1.form.length ≤ (formEntries entries).length
      ∧ e.2.form.length ≤ (formEntries entries).length := by
  obtain ⟨before, after, rfl⟩ := List.append_of_mem h
  simp only [formEntries_append, formEntries, List.length_append]
  omega

/-- What is written in few bytes has nothing in it that could not be counted. -/
theorem counted_of_length_lt {d : Nat} {v : Value} (h : Plain d v)
    (hlen : v.form.length < 0x10000000000000000) : Counted v := by
  induction h with
  | unsigned d n => exact .unsigned n
  | negative d n => exact .negative n
  | bytes d b =>
      simp only [Value.form, List.length_append] at hlen
      exact .bytes (by omega)
  | text d s =>
      simp only [Value.form, List.length_append] at hlen
      exact .text (by omega)
  | bool d b => exact .bool b
  | null d => exact .null
  | array each ih =>
      -- there are no more members than bytes
      have hcount := length_le_formItems each
      simp only [Value.form, List.length_append] at hlen
      refine .array (by omega) fun v hv => ih v hv ?_
      have := form_length_le_formItems hv
      omega
  | @map d entries keys values ihk ihv =>
      have hcount := length_le_formEntries keys
      simp only [Value.form, List.length_append] at hlen
      refine .map (by omega) (fun e he => ihk e he ?_) fun e he => ihv e he ?_
      · have := (form_length_le_formEntries he).1
        omega
      · have := (form_length_le_formEntries he).2
        omega

/-! ## Reading heads -/

theorem takeBytes_append (b rest : Bytes) : takeBytes b.length (b ++ rest) = .ok (b, rest) := by
  simp [takeBytes]

/-- A number of bytes that follow a first byte with the given additional information are its
argument. -/
theorem readHead_wide {major info width n : Nat} (hm : major < 8) (hi : 24 ≤ info) (hi' : info < 31)
    (hw : argumentWidth? info = some width) (hn : n < Nat.pow 256 width) (rest : Bytes) :
    readHead (UInt8.ofNat (major * 32 + info) :: Bytes.ofNat width n ++ rest)
      = .ok (⟨major, info, .value n⟩, rest) := by
  have hbyte : (UInt8.ofNat (major * 32 + info)).toNat = major * 32 + info := by
    rw [UInt8.toNat_ofNat']; omega
  have hmajor : (major * 32 + info) / 32 = major := by omega
  have hinfo : (major * 32 + info) % 32 = info := by omega
  have htake := takeBytes_append (Bytes.ofNat width n) rest
  rw [Bytes.length_ofNat] at htake
  simp only [List.cons_append, readHead, hbyte, hmajor, hinfo, hw, htake]
  -- the argument is neither in the first byte nor left open
  rw [if_neg (by omega), if_neg (by omega)]
  simp [bind, Except.bind, pure, Except.pure, Bytes.toNat_ofNat hn]

/-- Reading the head of an item gives its major type and argument back. -/
theorem readHead_head {major n : Nat} (hm : major < 8) (hn : n < 0x10000000000000000)
    (rest : Bytes) :
    ∃ info, readHead (head major n ++ rest) = .ok (⟨major, info, .value n⟩, rest) := by
  unfold head
  split
  · -- a small argument stands in the first byte
    rename_i hsmall
    refine ⟨n, ?_⟩
    have hbyte : (UInt8.ofNat (major * 32 + n)).toNat = major * 32 + n := by
      rw [UInt8.toNat_ofNat']; omega
    have hmajor : (major * 32 + n) / 32 = major := by omega
    have hinfo : (major * 32 + n) % 32 = n := by omega
    simp only [List.cons_append, List.nil_append, readHead, hbyte, hmajor, hinfo]
    rw [if_pos hsmall]
  split
  · rename_i h
    exact ⟨24, readHead_wide hm (by decide) (by decide) rfl h rest⟩
  split
  · rename_i h
    exact ⟨25, readHead_wide hm (by decide) (by decide) rfl h rest⟩
  split
  · rename_i h
    exact ⟨26, readHead_wide hm (by decide) (by decide) rfl h rest⟩
  · exact ⟨27, readHead_wide hm (by decide) (by decide) rfl hn rest⟩

/-! ## Reading forms -/

/-- The reader for nested items that a depth allows. -/
def nestedReader : (depth : Nat) → Option (Reader Value)
  | 0 => none
  | depth + 1 => some (readItem depth)

theorem readItem_of_readHead {d : Nat} {input rest : Bytes} {h : Head}
    (hh : readHead input = .ok (h, rest)) :
    readItem d input = readBody (nestedReader d) h rest := by
  cases d <;> simp [readItem, hh, bind, Except.bind, nestedReader]

/-- An item whose form is a head and a body is read if its body is. -/
theorem readItem_head_append {d major n : Nat} {v : Value} {body rest : Bytes} (hm : major < 8)
    (hn : n < 0x10000000000000000)
    (hbody : ∀ info, readBody (nestedReader d) ⟨major, info, .value n⟩ (body ++ rest)
      = .ok (v, rest)) :
    readItem d (head major n ++ body ++ rest) = .ok (v, rest) := by
  obtain ⟨info, hhead⟩ := readHead_head hm hn (body ++ rest)
  rw [List.append_assoc, readItem_of_readHead hhead, hbody info]

/-- A byte string is read if its length fits into a head. -/
theorem readItem_bytes (d : Nat) {b : Bytes} (hlen : b.length < 0x10000000000000000)
    (rest : Bytes) : readItem d ((Value.bytes b).form ++ rest) = .ok (.bytes b, rest) := by
  rw [Value.form]
  refine readItem_head_append (by decide) hlen fun info => ?_
  simp [readBody, bytesType, readByteString, takeBytes_append, bind, Except.bind, pure,
    Except.pure]

/-- Items that are read one by one are read as a list. -/
theorem readMany_formItems {read : Reader Value} {items : List Value}
    (h : ∀ v ∈ items, ∀ rest, read (v.form ++ rest) = .ok (v, rest)) (rest : Bytes) :
    readMany read items.length (formItems items ++ rest) = .ok (items, rest) := by
  induction items with
  | nil => simp [readMany, formItems]
  | cons v vs ih =>
      have hv := h v (by simp) (formItems vs ++ rest)
      have hvs := ih fun w hw => h w (by simp [hw])
      simp [readMany, formItems, hv, hvs, bind, Except.bind, pure, Except.pure]

/-- Entries whose keys and values are read are read as a list. -/
theorem readMany_formEntries {read : Reader Value} {entries : List (Value × Value)}
    (hk : ∀ e ∈ entries, ∀ rest, read (e.1.form ++ rest) = .ok (e.1, rest))
    (hv : ∀ e ∈ entries, ∀ rest, read (e.2.form ++ rest) = .ok (e.2, rest)) (rest : Bytes) :
    readMany (readPair read) entries.length (formEntries entries ++ rest)
      = .ok (entries, rest) := by
  induction entries with
  | nil => simp [readMany, formEntries]
  | cons e es ih =>
      have hkey := hk e (by simp) (e.2.form ++ (formEntries es ++ rest))
      have hvalue := hv e (by simp) (formEntries es ++ rest)
      have hrest := ih (fun f hf => hk f (by simp [hf])) (fun f hf => hv f (by simp [hf]))
      simp [readMany, readPair, formEntries, hkey, hvalue, hrest, bind, Except.bind, pure,
        Except.pure]

/-- Reading the form of a plain item gives the item back and leaves what follows, provided that its
lengths can be counted. -/
theorem readItem_form_of_counted {d : Nat} {v : Value} (h : Plain d v) (hc : Counted v)
    (rest : Bytes) : readItem d (v.form ++ rest) = .ok (v, rest) := by
  -- on how the item is plain: its members may be nested one level less
  induction h generalizing rest with
  | unsigned d n =>
      have h : readItem d (head unsignedType n.toNat ++ [] ++ rest) = .ok (.unsigned n, rest) :=
        readItem_head_append (by decide) n.toNat_lt fun info => by simp [readBody, unsignedType]
      simpa [Value.form] using h
  | negative d n =>
      have h : readItem d (head negativeType n.toNat ++ [] ++ rest) = .ok (.negative n, rest) :=
        readItem_head_append (by decide) n.toNat_lt fun info => by simp [readBody, negativeType]
      simpa [Value.form] using h
  | bytes d b =>
      cases hc with
      | bytes hlen => exact readItem_bytes d hlen rest
  | text d s =>
      cases hc with
      | text hlen =>
          rw [Value.form]
          refine readItem_head_append (by decide) hlen fun info => ?_
          simp [readBody, textType, readText, readPlainText, Bytes.toText?_ofText, bind,
            Except.bind, pure, Except.pure]
  | bool d b =>
      have hhead : readHead ((Value.bool b).form ++ rest)
          = .ok (⟨simpleType, if b then 21 else 20, .value (if b then 21 else 20)⟩, rest) := by
        cases b <;> rfl
      rw [readItem_of_readHead hhead]
      cases b <;> rfl
  | null d =>
      have hhead : readHead (Value.null.form ++ rest)
          = .ok (⟨simpleType, 22, .value 22⟩, rest) := rfl
      rw [readItem_of_readHead hhead]
      rfl
  | @array d items each ih =>
      cases hc with
      | array hlen hitems =>
          rw [Value.form]
          refine readItem_head_append (by decide) hlen fun info => ?_
          have hread : readMany (readItem d) items.length (formItems items ++ rest)
              = .ok (items, rest) :=
            readMany_formItems (fun v hv => ih v hv (hitems v hv)) rest
          simp [readBody, arrayType, nestedReader, readMembers, hread, bind, Except.bind, pure,
            Except.pure]
  | @map d entries keys values ihk ihv =>
      cases hc with
      | map hlen hkeys hvalues =>
          rw [Value.form]
          refine readItem_head_append (by decide) hlen fun info => ?_
          have hread : readMany (readPair (readItem d)) entries.length
              (formEntries entries ++ rest) = .ok (entries, rest) :=
            readMany_formEntries (fun e he => ihk e he (hkeys e he))
              (fun e he => ihv e he (hvalues e he)) rest
          simp [readBody, mapType, nestedReader, readMembers, hread, bind, Except.bind, pure,
            Except.pure]

theorem readItem_form {d : Nat} {v : Value} (h : Plain d v)
    (hlen : v.form.length < 0x10000000000000000) (rest : Bytes) :
    readItem d (v.form ++ rest) = .ok (v, rest) :=
  readItem_form_of_counted h (counted_of_length_lt h hlen) rest

/-- The first item of bytes that begin with the form of a plain item. -/
theorem read_form {v : Value} (h : Plain maxDepth v)
    (hlen : v.form.length < 0x10000000000000000) (rest : Bytes) :
    read (v.form ++ rest) = .ok v := by
  rw [read, readItem_form h hlen rest]
  rfl

/-- Items with one form are one item. -/
theorem eq_of_form_eq {d : Nat} {v w : Value} (hv : Plain d v) (hcv : Counted v)
    (hw : Plain d w) (hcw : Counted w) (h : v.form = w.form) : v = w := by
  have hread := readItem_form_of_counted hv hcv []
  rw [h, readItem_form_of_counted hw hcw []] at hread
  exact (Prod.mk.inj (Except.ok.inj hread)).1.symm

end GossipStore.Cbor
