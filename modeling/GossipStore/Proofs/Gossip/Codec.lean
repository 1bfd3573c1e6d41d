import GossipStore.ChainTracker
import GossipStore.Gossip.Message
import GossipStore.Proofs.Bundle.Fields
import GossipStore.Proofs.Cbor.Written

set_option autoImplicit false

/-! # Frames and greetings are read back

A replica reads what another has written: the frame of a message gives the message back, whatever
bytes follow (`Message.decode_encode_append`), so that no frame begins with another one
(`Message.frames_selfDelimiting`); and a greeting gives a tracker that has seen every chain as far
as the tracker that it describes (`ChainTracker.ofGreeting_of_greeting`).
-/

namespace GossipStore

open BundleFormat (ofInt64)
open Cbor (Value Plain Counted Ordered head)

/-! ## Words -/

theorem length_ofInt64_le (n : Int64) : (ofInt64 n).form.length ≤ 9 := by
  unfold ofInt64 Value.ofInt
  split <;> exact Cbor.length_head_le _ _

theorem plain_triple (d : Nat) (k l m : Int64) :
    Plain (d + 1) (.array [ofInt64 k, ofInt64 l, ofInt64 m]) := by
  refine .array fun v hv => ?_
  simp only [List.mem_cons, List.not_mem_nil, or_false] at hv
  rcases hv with rfl | rfl | rfl <;> exact BundleFormat.plain_ofInt64 d _

theorem counted_ofInt64 (n : Int64) : Counted (ofInt64 n) := by
  unfold ofInt64 Value.ofInt
  split
  · exact .unsigned _
  · exact .negative _

theorem counted_triple (k l m : Int64) :
    Counted (.array [ofInt64 k, ofInt64 l, ofInt64 m]) := by
  have hlen : [ofInt64 k, ofInt64 l, ofInt64 m].length < 0x10000000000000000 := by
    show 3 < 0x10000000000000000
    decide
  refine .array hlen fun v hv => ?_
  simp only [List.mem_cons, List.not_mem_nil, or_false] at hv
  rcases hv with rfl | rfl | rfl <;> exact counted_ofInt64 _

theorem length_triple_le (k l m : Int64) :
    (Value.array [ofInt64 k, ofInt64 l, ofInt64 m]).form.length ≤ 28 := by
  have hhead : (head Cbor.arrayType [ofInt64 k, ofInt64 l, ofInt64 m].length).length = 1 := rfl
  have := length_ofInt64_le k
  have := length_ofInt64_le l
  have := length_ofInt64_le m
  simp only [Value.form, Cbor.formItems, List.length_append, hhead, List.length_nil]
  omega

/-! ## Frames -/

namespace Message

theorem encodeInt_eq_form (n : Int64) : encodeInt n = (ofInt64 n).form := by
  have hlo := n.le_toInt
  have hhi := n.toInt_lt
  unfold encodeInt ofInt64 Value.ofInt
  -- the frame is written without items, but a word has the same bytes either way
  cases hn : n.toInt with
  | ofNat k =>
      have hk : k < 0x10000000000000000 := by
        rw [hn, Int.ofNat_eq_natCast] at hhi
        omega
      simp only [Value.form, UInt64.toNat_ofNat', Nat.mod_eq_of_lt hk]
  | negSucc k =>
      have hk : k < 0x10000000000000000 := by
        rw [hn] at hlo
        omega
      simp only [Value.form, UInt64.toNat_ofNat', Nat.mod_eq_of_lt hk]

theorem toInt64_ofInt64 (n : Int64) : toInt64 (ofInt64 n) = .ok n := by
  have hlo := n.le_toInt
  have hhi := n.toInt_lt
  have hmin : Int64.minValue.toInt = -0x8000000000000000 := rfl
  have hmax : Int64.maxValue.toInt = 0x7fffffffffffffff := rfl
  rw [toInt64, ofInt64, BundleFormat.toInt?_ofInt (by omega) (by omega)]
  simp only [hmin, hmax]
  rw [if_pos (by omega), Int64.ofInt_toInt]

/-- The item in the frame of a message. -/
def content : Message → Value
  | bundle b | greeting b => .bytes b
  | ack chain timestamp =>
    .array [ofInt64 chain.medallion, ofInt64 chain.chainStart, ofInt64 timestamp]

theorem encodeContent_eq_form (m : Message) : m.encodeContent = m.content.form := by
  cases m with
  | bundle b => rfl
  | greeting b => rfl
  | ack chain timestamp =>
      simp [encodeContent, content, Value.form, Cbor.formItems, encodeInt_eq_form]

/-- Whether the byte string in a message can be counted in a head. -/
def Fitting : Message → Prop
  | bundle b | greeting b => b.length < 0x10000000000000000
  | ack _ _ => True

theorem plain_content (d : Nat) (m : Message) : Plain (d + 1) m.content := by
  cases m with
  | bundle b => exact .bytes _ b
  | greeting b => exact .bytes _ b
  | ack chain timestamp => exact plain_triple d _ _ _

theorem counted_content {m : Message} (h : m.Fitting) : Counted m.content := by
  cases m with
  | bundle b => exact .bytes h
  | greeting b => exact .bytes h
  | ack chain timestamp => exact counted_triple _ _ _

/-- The item that a frame is: a map with one entry, from the kind of the message to its content. -/
def envelope (m : Message) : Value := .map [(.ofNat m.kind, m.content)]

theorem encode_eq_form (m : Message) : m.encode = m.envelope.form := by
  have hkind : (UInt64.ofNat m.kind).toNat = m.kind := by cases m <;> rfl
  simp only [encode, encodeContent_eq_form, envelope, Value.form, Cbor.formEntries, Value.ofNat,
    hkind, List.length_singleton, List.append_nil, List.append_assoc]

theorem plain_envelope (m : Message) : Plain Cbor.maxDepth m.envelope :=
  .map (List.forall_mem_singleton.mpr (.unsigned 255 _))
    (List.forall_mem_singleton.mpr (plain_content 254 m))

theorem counted_envelope {m : Message} (h : m.Fitting) : Counted m.envelope := by
  have hone : [(Value.ofNat m.kind, m.content)].length < 0x10000000000000000 := by
    show 1 < 0x10000000000000000
    decide
  exact .map hone (List.forall_mem_singleton.mpr (.unsigned _))
    (List.forall_mem_singleton.mpr (counted_content h))

/-- A frame says what was written into it, whatever bytes follow. -/
theorem decode_encode_append {m : Message} (h : m.Fitting) (rest : Bytes) :
    decode (m.encode ++ rest) = .ok m := by
  rw [decode, Cbor.read, encode_eq_form,
    Cbor.readItem_form_of_counted (plain_envelope m) (counted_envelope h) rest]
  cases m with
  | bundle b => rfl
  | greeting b => rfl
  | ack chain timestamp =>
      simp [Except.map, mapError_ok, bind, Except.bind, ofValue, ofEntry, envelope, content, kind,
        Value.ofNat, kindNumber?, toInt64_ofInt64, pure, Except.pure]

theorem decode_encode {m : Message} (h : m.Fitting) : decode m.encode = .ok m := by
  have hread := decode_encode_append h []
  rwa [List.append_nil] at hread

/-- A message whose frame begins the frame of another is that other message. -/
theorem eq_of_encode_begins {m n : Message} (hm : m.Fitting) (hn : n.Fitting)
    (h : m.encode <+: n.encode) : m = n := by
  obtain ⟨rest, hrest⟩ := h
  have hread := decode_encode_append hm rest
  rw [hrest, decode_encode hn] at hread
  exact (Except.ok.inj hread).symm

/-- **Frames end by themselves.** The frame of a message is read as that message whatever bytes
follow it. So no two messages have one frame, and no frame is the beginning of another. (The number
of bytes in a message is a word of 64 bits, so that a head can tell it.) -/
theorem frames_selfDelimiting :
    (∀ m : Message, m.Fitting → ∀ rest, decode (m.encode ++ rest) = .ok m)
    ∧ (∀ m n : Message, m.Fitting → n.Fitting → m.encode = n.encode → m = n)
    ∧ ∀ m n : Message, m.Fitting → n.Fitting → m.encode <+: n.encode → m.encode = n.encode := by
  refine ⟨fun m hm rest => decode_encode_append hm rest, fun m n hm hn hframe => ?_,
    fun m n hm hn hprefix => ?_⟩
  · exact eq_of_encode_begins hm hn (hframe ▸ List.prefix_refl m.encode)
  · rw [eq_of_encode_begins hm hn hprefix]

/-- Words at both ends of their range, and an empty bundle whose frame is shorter than that of a
greeting. -/
theorem frames_selfDelimiting_atEdges :
    let ack : Message := .ack ⟨Int64.minValue, -1⟩ Int64.maxValue
    (ack.Fitting ∧ decode (ack.encode ++ [0xff]) = .ok ack)
      ∧ ¬ (bundle []).encode <+: (greeting [0]).encode := by
  intro ack
  have hempty : (bundle []).Fitting := by
    change ([] : Bytes).length < 0x10000000000000000
    decide
  have hone : (greeting [0]).Fitting := by
    change ([0] : Bytes).length < 0x10000000000000000
    decide
  refine ⟨⟨trivial, frames_selfDelimiting.1 ack trivial [0xff]⟩, fun hprefix => ?_⟩
  have hframe := frames_selfDelimiting.2.2 _ _ hempty hone hprefix
  exact absurd (frames_selfDelimiting.2.1 _ _ hempty hone hframe) (by decide)

end Message

/-! ## Greetings -/

namespace Greeting

theorem toRows_map_ofRow (rows : List GreetingRow) : toRows (rows.map ofRow) = .ok rows := by
  induction rows with
  | nil => rfl
  | cons r rest ih =>
      have hrow : toRow (ofRow r) = .ok r := by
        simp [toRow, ofRow, BundleFormat.toInt64_ofInt64, bind, Except.bind, pure, Except.pure,
          mapError_ok]
      simp [toRows, hrow, ih, bind, Except.bind, pure, Except.pure]

/-- The item that is written for a greeting. -/
def item (rows : List GreetingRow) : Value := .array (rows.map ofRow)

theorem ordered_ofRow (r : GreetingRow) : Ordered (ofRow r) := by
  refine .array fun v hv => ?_
  simp only [List.mem_cons, List.not_mem_nil, or_false] at hv
  rcases hv with rfl | rfl | rfl <;> exact BundleFormat.ordered_ofInt64 _

theorem length_item_le (rows : List GreetingRow) :
    (item rows).form.length ≤ 28 * rows.length + 9 := by
  have hitems : (Cbor.formItems (rows.map ofRow)).length ≤ 28 * rows.length := by
    induction rows with
    | nil => exact Nat.le_refl _
    | cons r rest ih =>
        have := length_triple_le r.medallion r.chainStart r.seenThrough
        simp only [List.map_cons, Cbor.formItems, List.length_append, List.length_cons, ofRow]
          at ih ⊢
        omega
  have := Cbor.length_head_le Cbor.arrayType (rows.map ofRow).length
  simp only [item, Value.form, List.length_append]
  omega

theorem plain_item (rows : List GreetingRow) : Plain Cbor.maxDepth (item rows) := by
  refine .array fun v hv => ?_
  obtain ⟨r, -, rfl⟩ := List.mem_map.mp hv
  exact plain_triple 254 _ _ _

theorem ordered_item (rows : List GreetingRow) : Ordered (item rows) := by
  refine .array fun v hv => ?_
  obtain ⟨r, -, rfl⟩ := List.mem_map.mp hv
  exact ordered_ofRow r

/-- The rows are few words each, so only their number has to be counted. -/
theorem counted_item_iff {rows : List GreetingRow} :
    Counted (item rows) ↔ rows.length < 0x10000000000000000 := by
  rw [item, Cbor.counted_array_iff, List.length_map, and_iff_left]
  intro v hv
  obtain ⟨r, -, rfl⟩ := List.mem_map.mp hv
  exact counted_triple _ _ _

/-- Writing a greeting fails only if it has more rows than can be counted in a head. -/
theorem encode_eq (rows : List GreetingRow) : encode rows =
    if rows.length < 0x10000000000000000 then .ok (item rows).form
    else .error (.encoding .tooLong) := by
  have hwrite := Cbor.writes_form (plain_item rows) (ordered_item rows)
  rw [encode, ← item]
  rcases hwrite with ⟨hwrite, hcount⟩ | ⟨hwrite, hcount⟩
  · rw [hwrite, if_pos (counted_item_iff.mp hcount)]
    rfl
  · rw [hwrite, if_neg fun hlen => hcount (counted_item_iff.mpr hlen)]
    rfl

/-- A written greeting is read back, whatever bytes follow. -/
theorem decode_form_append {rows : List GreetingRow} (h : rows.length < 0x10000000000000000)
    (rest : Bytes) : decode ((item rows).form ++ rest) = .ok rows := by
  rw [decode, Cbor.read,
    Cbor.readItem_form_of_counted (plain_item rows) (counted_item_iff.mpr h) rest]
  exact toRows_map_ofRow rows

theorem decode_form {rows : List GreetingRow} (h : rows.length < 0x10000000000000000) :
    decode (item rows).form = .ok rows := by
  have hread := decode_form_append h []
  rwa [List.append_nil] at hread

/-- A greeting that is not too long is written and read back. -/
theorem decode_encode {rows : List GreetingRow} (h : 28 * rows.length + 9 < 0x10000000000000000) :
    ∃ bytes, encode rows = .ok bytes ∧ bytes.length ≤ 28 * rows.length + 9
      ∧ decode bytes = .ok rows :=
  ⟨(item rows).form, by rw [encode_eq, if_pos (by omega)], length_item_le rows,
    decode_form (by omega)⟩

end Greeting

namespace ChainTracker

/-- What the rows of some chains say of a chain, over what was known before. -/
theorem get?_foldl_rows {l : List (ChainKey × BundleInfo)}
    (h : l.Pairwise fun a b => compare a.1 b.1 = .lt) (m : SortedMap ChainKey BundleInfo)
    (c : ChainKey) :
    (((l.map fun e => (⟨e.1.medallion, e.1.chainStart, e.2.timestamp⟩ : GreetingRow)).foldl
        (fun m r => m.insert ⟨r.medallion, r.chainStart⟩ (infoOfRow r)) m).get? c).map
          (·.timestamp)
      = ((SortedMap.findPair c l).map (·.timestamp)).or ((m.get? c).map (·.timestamp)) := by
  induction l generalizing m with
  | nil => simp [SortedMap.findPair]
  | cons e rest ih =>
      obtain ⟨he, hrest⟩ := List.pairwise_cons.mp h
      rw [List.map_cons, List.foldl_cons, ih hrest, SortedMap.findPair]
      by_cases hc : c = e.1
      · -- the chains of a table are distinct, so no later row overwrites this one
        have hfind : SortedMap.findPair c rest = none := by
          cases hf : SortedMap.findPair c rest with
          | none => rfl
          | some info =>
              have hlt := he _ ((SortedMap.findPair_eq_some_iff hrest).mp hf)
              rw [hc] at hlt
              simp at hlt
        subst hc
        simp [hfind, infoOfRow]
      · rw [SortedMap.get?_insert_of_ne _ hc]
        simp [hc]

/-- A tracker that is read from its rows has seen what the tracker has. -/
theorem seenTo?_ofRows_rows (t : ChainTracker) : (ofRows t.rows).seenTo? = t.seenTo? := by
  funext c
  have h := get?_foldl_rows t.chains.sorted .empty c
  simp only [SortedMap.get?_empty, Option.map_none, Option.or_none] at h
  unfold seenTo? info? ofRows rows
  rw [h]
  rfl

theorem seenThrough_ofRows (t : ChainTracker) (c : ChainKey) :
    (ofRows t.rows).seenThrough c = t.seenThrough c := by
  rw [seenThrough, seenTo?_ofRows_rows, seenThrough]

/-- **A greeting says how far its sender has seen every chain.** -/
theorem ofGreeting_of_greeting {t : ChainTracker}
    (h : 28 * t.chains.size + 9 < 0x10000000000000000) :
    ∃ bytes, t.greeting = .ok bytes ∧ bytes.length ≤ 28 * t.chains.size + 9
      ∧ ∃ u, ofGreeting bytes = .ok u ∧ ∀ c, u.seenThrough c = t.seenThrough c := by
  have hrows : t.rows.length = t.chains.size := by simp [rows, SortedMap.size]
  rw [← hrows] at h ⊢
  obtain ⟨bytes, hencode, hlen, hdecode⟩ := Greeting.decode_encode h
  exact ⟨bytes, hencode, hlen, ofRows t.rows, by rw [ofGreeting, hdecode]; rfl,
    seenThrough_ofRows t⟩

end ChainTracker

end GossipStore
