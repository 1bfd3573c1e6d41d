import Mathlib.Data.List.Pairwise
import GossipStore.Proofs.Cbor.Form

set_option autoImplicit false

/-! # What is written of an item

The canonical writer sorts the entries of every map by their written keys. So it writes the form of
the sorted item (`writes_sorted`), and what is read back is the sorted item, too: of two items that
differ in the order of map entries only, the reader sees one. Nothing else is lost, and nothing else
than a length that cannot be counted keeps an item from being written (`written_readsBack`).

Two entries of one map are only told apart by their keys. As long as these are distinct, it does not
matter in which order a map lists its entries (`Rearranged`). Keys are distinct as items, not as
lists: a key that is a map itself stays the same key in whatever order it lists its own entries.
-/

namespace GossipStore.Cbor

/-! ## Sorted items -/

/-- Whether the key of an element is not after that of another. -/
def keyNotAfter {ι : Type} (key : ι → Bytes) (x y : ι) : Bool := (compare (key x) (key y)).isLE

/-- The form of the key of an entry. -/
def keyForm (e : Value × Value) : Bytes := e.1.form

mutual

/-- An item in which the entries of every map stand in the order of their keys, by the forms of these.
Entries with one key keep their order. -/
def Value.sorted : Value → Value
  | .array items => .array (sortedItems items)
  | .map entries => .map ((sortedEntries entries).mergeSort (keyNotAfter keyForm))
  | .unsigned n => .unsigned n
  | .negative n => .negative n
  | .bytes b => .bytes b
  | .text s => .text s
  | .bool b => .bool b
  | .null => .null
  | .float b => .float b
  | .tag number content => .tag number content

/-- Items, each of them sorted. -/
def sortedItems : List Value → List Value
  | [] => []
  | v :: rest => v.sorted :: sortedItems rest

/-- Entries in the order given, with keys and values that are sorted. -/
def sortedEntries : List (Value × Value) → List (Value × Value)
  | [] => []
  | (k, v) :: rest => (k.sorted, v.sorted) :: sortedEntries rest

end

theorem sortedItems_eq_map (items : List Value) : sortedItems items = items.map Value.sorted := by
  induction items with
  | nil => rfl
  | cons v rest ih => rw [sortedItems, List.map_cons, ih]

theorem sortedEntries_eq_map (entries : List (Value × Value)) :
    sortedEntries entries = entries.map fun e => (e.1.sorted, e.2.sorted) := by
  induction entries with
  | nil => rfl
  | cons e rest ih => rw [sortedEntries, List.map_cons, ih]

theorem sorted_map (entries : List (Value × Value)) : (Value.map entries).sorted
    = .map ((entries.map fun e => (e.1.sorted, e.2.sorted)).mergeSort (keyNotAfter keyForm)) := by
  rw [Value.sorted, sortedEntries_eq_map]

section KeyNotAfter

variable {ι : Type} (key : ι → Bytes) (x y z : ι)

theorem keyNotAfter_trans (h : keyNotAfter key x y = true) (h' : keyNotAfter key y z = true) :
    keyNotAfter key x z = true :=
  Std.TransCmp.isLE_trans h h'

theorem keyNotAfter_total : (keyNotAfter key x y || keyNotAfter key y x) = true := by
  have hswap : compare (key y) (key x) = (compare (key x) (key y)).swap :=
    Std.OrientedOrd.eq_swap
  unfold keyNotAfter
  rw [hswap]
  cases compare (key x) (key y) <;> rfl

end KeyNotAfter

/-- An entry of a map whose entries have been sorted comes from an entry of the map. -/
theorem mem_sorted_iff {entries : List (Value × Value)} {f : Value × Value} :
    f ∈ (sortedEntries entries).mergeSort (keyNotAfter keyForm)
      ↔ ∃ e ∈ entries, (e.1.sorted, e.2.sorted) = f := by
  rw [List.mem_mergeSort, sortedEntries_eq_map, List.mem_map]

theorem plain_sorted {d : Nat} {v : Value} (h : Plain d v) : Plain d v.sorted := by
  induction h with
  | unsigned d n => exact .unsigned d n
  | negative d n => exact .negative d n
  | bytes d b => exact .bytes d b
  | text d s => exact .text d s
  | bool d b => exact .bool d b
  | null d => exact .null d
  | array each ih =>
      rw [Value.sorted, sortedItems_eq_map]
      refine .array fun w hw => ?_
      obtain ⟨v, hv, rfl⟩ := List.mem_map.mp hw
      exact ih v hv
  | map keys values ihk ihv =>
      rw [Value.sorted]
      refine .map (fun f hf => ?_) fun f hf => ?_
      · obtain ⟨e, he, rfl⟩ := mem_sorted_iff.mp hf
        exact ihk e he
      · obtain ⟨e, he, rfl⟩ := mem_sorted_iff.mp hf
        exact ihv e he

theorem counted_sorted {v : Value} (h : Counted v) : Counted v.sorted := by
  induction h with
  | unsigned n => exact .unsigned n
  | negative n => exact .negative n
  | bytes hlen => exact .bytes hlen
  | text hlen => exact .text hlen
  | bool b => exact .bool b
  | null => exact .null
  | array hlen each ih =>
      rw [Value.sorted, sortedItems_eq_map]
      refine .array (by rwa [List.length_map]) fun w hw => ?_
      obtain ⟨v, hv, rfl⟩ := List.mem_map.mp hw
      exact ih v hv
  | map hlen keys values ihk ihv =>
      rw [Value.sorted]
      refine .map ?_ (fun f hf => ?_) fun f hf => ?_
      · rwa [List.length_mergeSort, sortedEntries_eq_map, List.length_map]
      · obtain ⟨e, he, rfl⟩ := mem_sorted_iff.mp hf
        exact ihk e he
      · obtain ⟨e, he, rfl⟩ := mem_sorted_iff.mp hf
        exact ihv e he

/-- Sorting leaves an item alone whose maps are in order. -/
theorem sorted_eq_self {v : Value} (h : Ordered v) : v.sorted = v := by
  induction h with
  | unsigned | negative | bytes | text | bool | null => rfl
  | @array items each ih =>
      have hitems : items.map Value.sorted = items.map id := List.map_congr_left ih
      rw [Value.sorted, sortedItems_eq_map, hitems, List.map_id]
  | @map entries keys values ascending ihk ihv =>
      have hentries : entries.map (fun e => (e.1.sorted, e.2.sorted)) = entries.map id := by
        refine List.map_congr_left fun e he => ?_
        rw [ihk e he, ihv e he]
        rfl
      have hsort : entries.mergeSort (keyNotAfter keyForm) = entries := List.mergeSort_of_pairwise ascending
      rw [sorted_map, hentries, List.map_id, hsort]

/-! ## The order of written entries -/

/-- An entry is placed behind those it is after and before those it is not after. -/
theorem placeEntry_append {α : Type} {e : Bytes × α} {before after : List (Bytes × α)}
    (hbefore : ∀ f ∈ before, (compare e.1 f.1).isLE = false)
    (hafter : ∀ f ∈ after, (compare e.1 f.1).isLE = true) :
    placeEntry e (before ++ after) = before ++ e :: after := by
  induction before with
  | nil =>
      cases after with
      | nil => rfl
      | cons f rest => rw [List.nil_append, placeEntry, if_pos (hafter f List.mem_cons_self)]; rfl
  | cons f rest ih =>
      have hf := hbefore f List.mem_cons_self
      rw [List.cons_append, placeEntry, if_neg (by rw [hf]; decide),
        ih fun g hg => hbefore g (List.mem_cons_of_mem _ hg)]
      rfl

/-- **The writer sorts entries by their keys and is stable.** -/
theorem sortEntries_map {ι α : Type} (key : ι → Bytes) (content : ι → α) (l : List ι) :
    sortEntries (l.map fun x => (key x, content x))
      = (l.mergeSort (keyNotAfter key)).map fun x => (key x, content x) := by
  induction l with
  | nil =>
      rw [List.mergeSort_nil]
      rfl
  | cons x rest ih =>
      -- sorting places the first entry among the others, which have been sorted
      obtain ⟨before, after, hsort, hrest, hbefore⟩ :=
        List.mergeSort_cons (keyNotAfter_trans key) (keyNotAfter_total key) x rest
      have hascending :=
        List.pairwise_mergeSort (keyNotAfter_trans key) (keyNotAfter_total key) (x :: rest)
      rw [hsort] at hascending
      have hafter := (List.pairwise_cons.mp (List.pairwise_append.mp hascending).2.1).1
      have hplace : sortEntries ((x :: rest).map fun x => (key x, content x))
          = placeEntry (key x, content x) (sortEntries (rest.map fun x => (key x, content x))) := rfl
      rw [hplace, ih, hrest, hsort, List.map_append, List.map_append, List.map_cons]
      refine placeEntry_append (fun g hg => ?_) fun g hg => ?_
      · obtain ⟨y, hy, rfl⟩ := List.mem_map.mp hg
        simpa [keyNotAfter] using hbefore y hy
      · obtain ⟨y, hy, rfl⟩ := List.mem_map.mp hg
        exact hafter y hy

/-! ## Writing -/

/-- The outcome of writing: what is written, if all lengths are counted, and otherwise the complaint
that one of them does not fit into a head. -/
def Writes {α : Type} (counted : Prop) (r : Except WriteError α) (x : α) : Prop :=
  r = .ok x ∧ counted ∨ r = .error .tooLong ∧ ¬ counted

section Writes

variable {α β : Type} {p q : Prop} {r : Except WriteError α} {x : α}

theorem Writes.ok (x : α) : Writes True (.ok x) x := .inl ⟨rfl, trivial⟩

theorem Writes.eq_ok (h : Writes p r x) (hp : p) : r = .ok x := by
  rcases h with ⟨h, -⟩ | ⟨-, hnot⟩
  · exact h
  · exact absurd hp hnot

theorem Writes.congr (h : Writes p r x) (hpq : p ↔ q) : Writes q r x := by
  rwa [Writes, ← hpq]

/-- What is written in two steps is counted if it is in both. -/
theorem Writes.bind {f : α → Except WriteError β} {y : β} (hr : Writes p r x)
    (hf : Writes q (f x) y) : Writes (p ∧ q) (r >>= f) y := by
  rcases hr with ⟨rfl, hp⟩ | ⟨rfl, hp⟩
  · exact hf.congr ⟨fun hq => ⟨hp, hq⟩, And.right⟩
  · exact .inr ⟨rfl, fun h => hp h.1⟩

/-- A last step cannot fail. -/
theorem Writes.map (hr : Writes p r x) (f : α → β) : Writes p (do return f (← r)) (f x) := by
  rcases hr with ⟨rfl, hp⟩ | ⟨rfl, hp⟩
  · exact .inl ⟨rfl, hp⟩
  · exact .inr ⟨rfl, hp⟩

end Writes

theorem writes_lengthHead (major n : Nat) :
    Writes (n < 0x10000000000000000) (lengthHead major n) (head major n) := by
  unfold lengthHead
  split
  · rename_i hn
    exact .inl ⟨rfl, hn⟩
  · rename_i hn
    exact .inr ⟨rfl, hn⟩

theorem writes_items {items : List Value}
    (h : ∀ v ∈ items, Writes (Counted v) (write v) v.sorted.form) :
    Writes (∀ v ∈ items, Counted v) (writeItems items) (formItems (sortedItems items)) := by
  induction items with
  | nil => exact (Writes.ok []).congr (by simp)
  | cons v rest ih =>
      have hv := h v List.mem_cons_self
      have hrest := ih fun w hw => h w (List.mem_cons_of_mem _ hw)
      rw [writeItems, sortedItems, formItems]
      exact (hv.bind (hrest.map _)).congr (by simp)

/-- What is written one after another is counted if all of it is. -/
theorem writes_mapM {α β : Type} {counted : α → Prop} {f : α → Except WriteError β} {g : α → β}
    {l : List α} (h : ∀ x ∈ l, Writes (counted x) (f x) (g x)) :
    Writes (∀ x ∈ l, counted x) (l.mapM f) (l.map g) := by
  induction l with
  | nil => exact (Writes.ok []).congr (by simp)
  | cons x rest ih =>
      have hx := h x List.mem_cons_self
      have hrest := ih fun y hy => h y (List.mem_cons_of_mem _ hy)
      rw [List.mapM_cons, List.map_cons]
      exact (hx.bind (hrest.map _)).congr (by simp)

theorem writeEntries_eq_map (entries : List (Value × Value)) :
    writeEntries entries = entries.map fun e => (write e.1, write e.2) := by
  induction entries with
  | nil => rfl
  | cons e rest ih => rw [writeEntries, List.map_cons, ih]

theorem formEntries_eq_flatten (entries : List (Value × Value)) :
    formEntries entries = (entries.map fun e => e.1.form ++ e.2.form).flatten := by
  induction entries with
  | nil => rfl
  | cons e rest ih => rw [formEntries, List.map_cons, List.flatten_cons, ih]

/-- The keys of a map are written in the order given, and each value is left for later. -/
theorem writes_keys {entries : List (Value × Value)}
    (h : ∀ e ∈ entries, Writes (Counted e.1) (write e.1) e.1.sorted.form) :
    Writes (∀ e ∈ entries, Counted e.1)
      ((writeEntries entries).mapM fun e => return (← e.1, e.2))
      (entries.map fun e => (e.1.sorted.form, write e.2)) := by
  rw [writeEntries_eq_map, List.mapM_map]
  exact writes_mapM fun e he => (h e he).map _

/-- Values are written behind their keys, in the order of these. -/
theorem writes_values {entries : List (Value × Value)}
    (h : ∀ e ∈ entries, Writes (Counted e.2) (write e.2) e.2.sorted.form) :
    Writes (∀ e ∈ entries, Counted e.2)
      ((sortEntries (entries.map fun e => (e.1.sorted.form, write e.2))).mapM
        fun e => return e.1 ++ (← e.2))
      ((entries.mergeSort (keyNotAfter fun e => e.1.sorted.form)).map
        fun e => e.1.sorted.form ++ e.2.sorted.form) := by
  have hvalue : ∀ e ∈ entries.mergeSort (keyNotAfter fun e => e.1.sorted.form),
      Writes (Counted e.2) (do return e.1.sorted.form ++ (← write e.2))
        (e.1.sorted.form ++ e.2.sorted.form) :=
    fun e he => (h e (List.mem_mergeSort.mp he)).map (e.1.sorted.form ++ ·)
  rw [sortEntries_map, List.mapM_map]
  exact (writes_mapM hvalue).congr (by simp only [List.mem_mergeSort])

/-- Sorting the entries of a map and sorting inside them can be done in either order. -/
theorem mergeSort_sortedEntries (entries : List (Value × Value)) :
    (sortedEntries entries).mergeSort (keyNotAfter keyForm)
      = (entries.mergeSort (keyNotAfter fun e => e.1.sorted.form)).map
        fun e => (e.1.sorted, e.2.sorted) := by
  have hsame : ∀ e ∈ entries, ∀ f ∈ entries, keyNotAfter (fun e => e.1.sorted.form) e f
      = keyNotAfter keyForm (e.1.sorted, e.2.sorted) (f.1.sorted, f.2.sorted) :=
    fun e _ f _ => rfl
  rw [sortedEntries_eq_map, List.map_mergeSort hsame]

/-- **The canonical writer writes the form of the sorted item.** -/
theorem writes_sorted {d : Nat} {v : Value} (h : Plain d v) :
    Writes (Counted v) (write v) v.sorted.form := by
  induction h with
  | unsigned d n => exact .inl ⟨rfl, .unsigned n⟩
  | negative d n => exact .inl ⟨rfl, .negative n⟩
  | bool d b => exact .inl ⟨rfl, .bool b⟩
  | null d => exact .inl ⟨rfl, .null⟩
  | bytes d b =>
      rw [write, Value.sorted, Value.form, counted_bytes_iff]
      exact (writes_lengthHead bytesType b.length).map (· ++ b)
  | text d s =>
      rw [write, Value.sorted, Value.form, counted_text_iff]
      exact (writes_lengthHead textType (Bytes.ofText s).length).map (· ++ Bytes.ofText s)
  | @array d items each ih =>
      have hlen : (sortedItems items).length = items.length := by
        rw [sortedItems_eq_map, List.length_map]
      rw [write, Value.sorted, Value.form, counted_array_iff, hlen]
      exact (writes_lengthHead arrayType items.length).bind ((writes_items ih).map _)
  | @map d entries keys values ihk ihv =>
      have hlen : ((sortedEntries entries).mergeSort (keyNotAfter keyForm)).length
          = entries.length := by
        rw [List.length_mergeSort, sortedEntries_eq_map, List.length_map]
      have hbody : formEntries ((sortedEntries entries).mergeSort (keyNotAfter keyForm))
          = ((entries.mergeSort (keyNotAfter fun e => e.1.sorted.form)).map
            fun e => e.1.sorted.form ++ e.2.sorted.form).flatten := by
        rw [mergeSort_sortedEntries, formEntries_eq_flatten, List.map_map]
        rfl
      rw [write, Value.sorted, Value.form, counted_map_iff, hlen, hbody]
      refine Writes.congr (Writes.bind (writes_keys ihk)
        (Writes.bind (writes_lengthHead mapType entries.length) (Writes.map (writes_values ihv) _))) ?_
      rw [and_left_comm]
      simp only [imp_and, forall_and]

theorem writes_form {d : Nat} {v : Value} (h : Plain d v) (ho : Ordered v) :
    Writes (Counted v) (write v) v.form := by
  have hw := writes_sorted h
  rwa [sorted_eq_self ho] at hw

/-! ## Rearranged maps -/

/-- Keys that are distinct as items: those that only differ in the order in which maps inside them
list their entries are one key. -/
def DistinctKeys (entries : List (Value × Value)) : Prop :=
  entries.Pairwise fun e f => e.1.sorted ≠ f.1.sorted

/-- Keys whose maps are in order, such as all that neither are nor hold maps, are distinct if no two
of them are equal. -/
theorem distinctKeys_of_ordered {entries : List (Value × Value)}
    (ho : ∀ e ∈ entries, Ordered e.1) (hne : entries.Pairwise fun e f => e.1 ≠ f.1) :
    DistinctKeys entries := by
  refine hne.imp_of_mem fun he hf hne => ?_
  rwa [sorted_eq_self (ho _ he), sorted_eq_self (ho _ hf)]

/-- Items that differ only in the order in which maps with distinct keys list their entries, at any
depth. -/
inductive Rearranged : Value → Value → Prop where
  | refl (v : Value) : Rearranged v v
  | trans {u v w : Value} (first : Rearranged u v) (second : Rearranged v w) : Rearranged u w
  | item {before after : List Value} {v w : Value} (inside : Rearranged v w) :
      Rearranged (.array (before ++ v :: after)) (.array (before ++ w :: after))
  | entry {before after : List (Value × Value)} {k l v w : Value} (key : Rearranged k l)
      (value : Rearranged v w) :
      Rearranged (.map (before ++ (k, v) :: after)) (.map (before ++ (l, w) :: after))
  | entries {entries entries' : List (Value × Value)} (perm : entries.Perm entries')
      (distinct : DistinctKeys entries) : Rearranged (.map entries) (.map entries')

/-- Entries whose keys have different forms are sorted alike in whatever order they come. -/
theorem mergeSort_eq_of_perm {l l' : List (Value × Value)} (h : l.Perm l')
    (hne : l.Pairwise fun e f => keyForm e ≠ keyForm f) :
    l.mergeSort (keyNotAfter keyForm) = l'.mergeSort (keyNotAfter keyForm) := by
  have hsorted (l : List (Value × Value)) :=
    List.pairwise_mergeSort (keyNotAfter_trans keyForm) (keyNotAfter_total keyForm) l
  refine List.Perm.eq_of_pairwise (fun e f he hf hef hfe => ?_) (hsorted l) (hsorted l')
    ((l.mergeSort_perm _).trans (h.trans (l'.mergeSort_perm _).symm))
  have he : e ∈ l := List.mem_mergeSort.mp he
  have hf : f ∈ l := h.mem_iff.mpr (List.mem_mergeSort.mp hf)
  have hform : keyForm e = keyForm f :=
    Std.LawfulEqCmp.eq_of_compare (Std.OrientedCmp.isLE_antisymm hef hfe)
  have hsymm : Std.Symm fun e f : Value × Value => keyForm e ≠ keyForm f :=
    ⟨fun _ _ hne => hne.symm⟩
  by_contra hdistinct
  exact hne.forall he hf hdistinct hform

/-- **Rearranging maps changes nothing once they are sorted.** -/
theorem Rearranged.sorted_eq {v w : Value} (h : Rearranged v w) {d : Nat} (hv : Plain d v)
    (hcv : Counted v) : Plain d w ∧ Counted w ∧ w.sorted = v.sorted := by
  induction h generalizing d with
  | refl v => exact ⟨hv, hcv, rfl⟩
  | trans first second ih₁ ih₂ =>
      obtain ⟨hp, hc, hs⟩ := ih₁ hv hcv
      obtain ⟨hp, hc, hs'⟩ := ih₂ hp hc
      exact ⟨hp, hc, hs'.trans hs⟩
  | @item before after v w inside ih =>
      obtain ⟨hlen, hcounted⟩ := counted_array_iff.mp hcv
      cases hv with
      | array each =>
          simp only [List.forall_mem_append, List.forall_mem_cons] at each hcounted
          obtain ⟨hp, hc, hs⟩ := ih each.2.1 hcounted.2.1
          refine ⟨.array ?_, counted_array_iff.mpr ⟨?_, ?_⟩, ?_⟩
          · simp only [List.forall_mem_append, List.forall_mem_cons]
            exact ⟨each.1, hp, each.2.2⟩
          · simpa using hlen
          · simp only [List.forall_mem_append, List.forall_mem_cons]
            exact ⟨hcounted.1, hc, hcounted.2.2⟩
          · simp only [Value.sorted, sortedItems_eq_map, List.map_append, List.map_cons, hs]
  | @entry before after k l v w key value ihk ihv =>
      obtain ⟨hlen, hcounted⟩ := counted_map_iff.mp hcv
      cases hv with
      | map keys values =>
          simp only [List.forall_mem_append, List.forall_mem_cons] at keys values hcounted
          obtain ⟨hpk, hck, hsk⟩ := ihk keys.2.1 hcounted.2.1.1
          obtain ⟨hpv, hcw, hsv⟩ := ihv values.2.1 hcounted.2.1.2
          refine ⟨.map ?_ ?_, counted_map_iff.mpr ⟨?_, ?_⟩, ?_⟩
          · simp only [List.forall_mem_append, List.forall_mem_cons]
            exact ⟨keys.1, hpk, keys.2.2⟩
          · simp only [List.forall_mem_append, List.forall_mem_cons]
            exact ⟨values.1, hpv, values.2.2⟩
          · simpa using hlen
          · simp only [List.forall_mem_append, List.forall_mem_cons]
            exact ⟨hcounted.1, ⟨hck, hcw⟩, hcounted.2.2⟩
          · simp only [sorted_map, List.map_append, List.map_cons, hsk, hsv]
  | @entries entries entries' perm distinct =>
      obtain ⟨hlen, hcounted⟩ := counted_map_iff.mp hcv
      cases hv with
      | map keys values =>
          refine ⟨.map (fun e he => keys e (perm.mem_iff.mpr he))
            fun e he => values e (perm.mem_iff.mpr he),
            counted_map_iff.mpr ⟨perm.length_eq ▸ hlen,
              fun e he => hcounted e (perm.mem_iff.mpr he)⟩, ?_⟩
          -- keys that differ after sorting have different forms, as they are known by these
          have hforms : (entries.map fun e => (e.1.sorted, e.2.sorted)).Pairwise
              fun e f => keyForm e ≠ keyForm f := by
            refine List.pairwise_map.mpr (distinct.imp_of_mem fun he hf hne hform => hne ?_)
            exact eq_of_form_eq (plain_sorted (keys _ he)) (counted_sorted (hcounted _ he).1)
              (plain_sorted (keys _ hf)) (counted_sorted (hcounted _ hf).1) hform
          rw [sorted_map, sorted_map, mergeSort_eq_of_perm (perm.map _) hforms]

/-- **What is written of an item is read back as the sorted item.** Every item without floating point
numbers and tags that is nested no deeper than the reader goes, and whose lengths can be counted, is
written, namely as the form of the sorted item: so it is by what is written of their keys that the
entries of maps are sorted. It is read as the sorted item, whatever bytes follow. What is written
does not depend on the order in which maps with distinct keys list their entries. -/
theorem written_readsBack :
    (∀ v : Value, Plain maxDepth v → Counted v → write v = .ok v.sorted.form
      ∧ ∀ rest, readItem maxDepth (v.sorted.form ++ rest) = .ok (v.sorted, rest))
    ∧ (∀ (d : Nat) (v w : Value), Plain d v → Counted v → Rearranged v w → write w = write v)
    ∧ ∀ (d : Nat) (entries entries' : List (Value × Value)), Plain d (.map entries) →
      Counted (.map entries) → (∀ e ∈ entries, Ordered e.1) →
      entries.Pairwise (fun e f => e.1 ≠ f.1) → entries.Perm entries' →
      write (.map entries') = write (.map entries) := by
  have hrearranged (d : Nat) (v w : Value) (hv : Plain d v) (hcv : Counted v)
      (h : Rearranged v w) : write w = write v := by
    obtain ⟨hw, hcw, hsorted⟩ := h.sorted_eq hv hcv
    rw [(writes_sorted hv).eq_ok hcv, (writes_sorted hw).eq_ok hcw, hsorted]
  refine ⟨fun v hv hcv => ?_, hrearranged, fun d entries entries' hv hcv ho hne hperm => ?_⟩
  · refine ⟨(writes_sorted hv).eq_ok hcv, fun rest => ?_⟩
    exact readItem_form_of_counted (plain_sorted hv) (counted_sorted hcv) rest
  · exact hrearranged d _ _ hv hcv (.entries hperm (distinctKeys_of_ordered ho hne))

/-- An item with numbers at both ends of their range, a key that comes twice and a map inside that
lists its entries in another order. -/
theorem written_readsBack_nested :
    let inside : List (Value × Value) := [(.bytes [1], .null), (.unsigned 0, .bool true)]
    let numbers : Value := .array [.negative 0xffffffffffffffff, .unsigned 0xffffffffffffffff]
    let around (entries : List (Value × Value)) : Value := .map
      [(.text "b", numbers), (.unsigned 256, .map entries), (.text "b", .bool false)]
    let written : Bytes := [0xa3, 0x19, 0x01, 0x00, 0xa2, 0x00, 0xf5, 0x41, 0x01, 0xf6,
      0x61, 0x62, 0x82, 0x3b, 0xff, 0xff, 0xff, 0xff, 0xff, 0xff, 0xff, 0xff,
      0x1b, 0xff, 0xff, 0xff, 0xff, 0xff, 0xff, 0xff, 0xff, 0x61, 0x62, 0xf4]
    let sorted : Value := .map
      [(.unsigned 256, .map inside.reverse), (.text "b", numbers), (.text "b", .bool false)]
    (Plain maxDepth (around inside) ∧ Counted (around inside)
        ∧ Rearranged (around inside) (around inside.reverse))
      ∧ write (around inside) = .ok written ∧ write (around inside.reverse) = .ok written
      ∧ (∀ rest, readItem maxDepth (written ++ rest) = .ok (sorted, rest))
      ∧ write (.map inside.reverse) = write (.map inside) := by
  intro inside numbers around written sorted
  have hkeys : ∀ e ∈ inside, Ordered e.1 := by
    simpa [inside] using And.intro (Ordered.bytes [1]) (Ordered.unsigned 0)
  have hdistinct : inside.Pairwise fun e f => e.1 ≠ f.1 := by simp [inside]
  have hperm : inside.Perm inside.reverse := (List.reverse_perm inside).symm
  have hinside : Plain 255 (.map inside) :=
    .map (by simpa [inside] using And.intro (Plain.bytes 254 [1]) (Plain.unsigned 254 0))
      (by simpa [inside] using And.intro (Plain.null 254) (Plain.bool 254 true))
  have hnumbers : Plain 255 numbers :=
    .array (by simpa using And.intro (Plain.negative 254 _) (Plain.unsigned 254 _))
  have hplain : Plain maxDepth (around inside) :=
    .map (by simpa using
        And.intro (Plain.text 255 "b") (And.intro (Plain.unsigned 255 256) (Plain.text 255 "b")))
      (by simpa using And.intro hnumbers (And.intro hinside (Plain.bool 255 false)))
  have hcounted : Counted (around inside) := counted_of_length_lt hplain (by decide)
  have hrearranged : Rearranged (around inside) (around inside.reverse) :=
    @Rearranged.entry [_] [_] _ _ _ _ (.refl _)
      (.entries hperm (distinctKeys_of_ordered hkeys hdistinct))
  obtain ⟨hreads, hsame, hsameKeys⟩ := written_readsBack
  obtain ⟨hwrite, hread⟩ := hreads _ hplain hcounted
  have hwritten : write (around inside) = .ok written := rfl
  have hform : (around inside).sorted.form = written := Except.ok.inj (hwrite.symm.trans hwritten)
  rw [hform] at hread
  -- the reader tells what the item is when it is sorted
  have hsorted : readItem maxDepth written = .ok (sorted, []) := rfl
  have hvalue : (around inside).sorted = sorted := by
    have hplainRead := hread []
    rw [List.append_nil, hsorted] at hplainRead
    exact (Prod.mk.inj (Except.ok.inj hplainRead)).1.symm
  refine ⟨⟨hplain, hcounted, hrearranged⟩, hwritten, ?_, fun rest => ?_, ?_⟩
  · rw [hsame maxDepth _ _ hplain hcounted hrearranged, hwritten]
  · rw [hread rest, hvalue]
  · exact hsameKeys 255 inside inside.reverse hinside (counted_of_length_lt hinside (by decide))
      hkeys hdistinct hperm

/-- Two lists of the same entries are two values, but one key. So the two entries here do not change
places when they are sorted, and in either order something else is written of the map. -/
theorem rearranged_written_oneKeyTwice :
    let key : Value := .map [(.unsigned 0, .null), (.unsigned 1, .null)]
    let sameKey : Value := .map [(.unsigned 1, .null), (.unsigned 0, .null)]
    let entries : List (Value × Value) := [(key, .bool true), (sameKey, .bool false)]
    (Plain maxDepth (.map entries) ∧ Counted (.map entries))
      ∧ entries.Pairwise (fun e f => e.1 ≠ f.1) ∧ entries.Perm entries.reverse
      ∧ write (.map entries)
        = .ok [0xa2, 0xa2, 0, 0xf6, 1, 0xf6, 0xf5, 0xa2, 0, 0xf6, 1, 0xf6, 0xf4]
      ∧ write (.map entries.reverse)
        = .ok [0xa2, 0xa2, 0, 0xf6, 1, 0xf6, 0xf4, 0xa2, 0, 0xf6, 1, 0xf6, 0xf5]
      ∧ write (.map entries.reverse) ≠ write (.map entries) := by
  intro key sameKey entries
  have hkey (k l : UInt64) : Plain 255 (.map [(.unsigned k, .null), (.unsigned l, .null)]) :=
    .map (by simpa using And.intro (Plain.unsigned 254 k) (Plain.unsigned 254 l))
      (by simpa using Plain.null 254)
  have hplain : Plain maxDepth (.map entries) :=
    .map (by simpa [entries] using And.intro (hkey 0 1) (hkey 1 0))
      (by simpa [entries] using And.intro (Plain.bool 255 true) (Plain.bool 255 false))
  have hdistinct : entries.Pairwise fun e f => e.1 ≠ f.1 := by
    simp [entries, key, sameKey]
  have hwritten : write (.map entries)
      = .ok [0xa2, 0xa2, 0, 0xf6, 1, 0xf6, 0xf5, 0xa2, 0, 0xf6, 1, 0xf6, 0xf4] := rfl
  have hreversed : write (.map entries.reverse)
      = .ok [0xa2, 0xa2, 0, 0xf6, 1, 0xf6, 0xf4, 0xa2, 0, 0xf6, 1, 0xf6, 0xf5] := rfl
  refine ⟨⟨hplain, counted_of_length_lt hplain (by decide)⟩, hdistinct,
    (List.reverse_perm entries).symm, hwritten, hreversed, ?_⟩
  rw [hwritten, hreversed]
  exact fun h => absurd (Except.ok.inj h) (by decide)

end GossipStore.Cbor
