import GossipStore.Proofs.Bundle.Bundlers

set_option autoImplicit false

/-! # Bundles under construction

A bundle is built in place, and all addresses that are handed out meanwhile look into one cell,
which stays empty until the bundle is sealed (`Building`). Every operation does its checks before it
writes anything. So one that fails has changed nothing, and one that succeeds does what the same
operation does on a bundler (`runOn_addChange`, `runOn_setComment`, `runOn_sealWith`).

What an operation can do is listed once (`Outcome`). It follows that after any run of operations the
changes which have been added are numbered in their order, the cell holds what the bundle has been
sealed with, and the sealed bundle is that of the changes (`consistent_run`).
-/

namespace GossipStore

/-! ## Work in place -/

/-- A bundle under construction, with the cell into which its addresses look. -/
structure Building where
  bundler : Bundler
  /-- The metadata of the sealed bundle, which is written once. -/
  slot : Option BundleInfo
deriving DecidableEq

/-- Work on a bundle in place. A failure breaks it off, and what has been written by then stays. -/
abbrev Work (α : Type) := ExceptT BundleError (StateM Building) α

namespace Work

variable {α β : Type}

/-- The result of some work, and the bundle after it. -/
def runOn (x : Work α) (w : Building) : Except BundleError α × Building := x.run.run w

theorem runOn_pure (a : α) (w : Building) : (pure a : Work α).runOn w = (.ok a, w) := rfl

theorem runOn_get (w : Building) : (get : Work Building).runOn w = (.ok w, w) := rfl

theorem runOn_modify (f : Building → Building) (w : Building) :
    (modify f : Work PUnit).runOn w = (.ok ⟨⟩, f w) := rfl

theorem runOn_ofExcept (x : Except BundleError α) (w : Building) :
    (MonadExcept.ofExcept x : Work α).runOn w = (x, w) := by
  cases x <;> rfl

theorem runOn_bind (x : Work α) (f : α → Work β) (w : Building) :
    (x >>= f).runOn w = match x.runOn w with
      | (.ok a, w') => (f a).runOn w'
      | (.error e, w') => (.error e, w') := by
  have hbind : (x >>= f).runOn w = ExceptT.bindCont f (x.runOn w).1 (x.runOn w).2 := rfl
  rw [hbind]
  obtain ⟨_ | a, w'⟩ := x.runOn w
  · rfl
  · rfl

end Work

namespace Building

open Work
open Bundler (checkMedallion)

/-- Where building starts, with the comment and the medallion that a bundler is made with. -/
def start (comment : Option String) (medallion : Option Medallion) : Building :=
  ⟨⟨[], comment, medallion, none⟩, none⟩

/-- Adds a change and hands out its address. -/
def addChange (c : Change) : Work PendingMuid := do
  MonadExcept.ofExcept (← get).bundler.ensureOpen
  MonadExcept.ofExcept (c.validate.mapError .malformedBundle)
  modify fun w => { w with bundler.changes := w.bundler.changes ++ [c] }
  return ⟨UInt32.ofNat (← get).bundler.changes.length⟩

/-- Changes the comment. -/
def setComment (comment : String) : Work PUnit := do
  MonadExcept.ofExcept (← get).bundler.ensureOpen
  modify fun w => { w with bundler.comment := some comment }

/-- Seals the bundle, and lets the addresses know under which metadata. -/
def sealWith (info : BundleInfo) : Work Bundle := do
  let w ← get
  MonadExcept.ofExcept w.bundler.ensureOpen
  MonadExcept.ofExcept (checkMedallion info w.bundler.medallion)
  let info := { info with comment := info.comment <|> w.bundler.comment }
  let bundle ← MonadExcept.ofExcept (Bundle.ofParts info w.bundler.changes)
  -- a cell that has been written keeps what it holds
  modify fun w => { w with slot := w.slot <|> some info }
  modify fun w => { w with bundler.sealed := some bundle }
  return bundle

/-! ## In place as on bundlers -/

variable {w : Building}

theorem runOn_addChange (c : Change) (w : Building) : (addChange c).runOn w =
    match w.bundler.addChange c with
    | .ok (b, pending) => (.ok pending, ⟨b, w.slot⟩)
    | .error e => (.error e, w) := by
  simp only [addChange, runOn_bind, runOn_get, runOn_ofExcept, runOn_modify, runOn_pure]
  rw [Bundler.addChange]
  cases w.bundler.ensureOpen with
  | error e => rfl
  | ok u => cases c.validate <;> rfl

theorem runOn_setComment (comment : String) (w : Building) : (setComment comment).runOn w =
    match w.bundler.setComment comment with
    | .ok b => (.ok ⟨⟩, ⟨b, w.slot⟩)
    | .error e => (.error e, w) := by
  simp only [setComment, runOn_bind, runOn_get, runOn_ofExcept, runOn_modify]
  rw [Bundler.setComment]
  cases w.bundler.ensureOpen <;> rfl

theorem runOn_sealWith (info : BundleInfo) (w : Building) : (sealWith info).runOn w =
    match w.bundler.sealWith info with
    | .ok (b, bundle) => (.ok bundle, ⟨b, w.slot <|> some bundle.info⟩)
    | .error e => (.error e, w) := by
  simp only [sealWith, runOn_bind, runOn_get, runOn_ofExcept, runOn_modify, runOn_pure]
  rw [Bundler.sealWith_eq]
  cases w.bundler.ensureOpen with
  | error e => rfl
  | ok u =>
      cases checkMedallion info w.bundler.medallion with
      | error e => rfl
      | ok u =>
          cases hparts : Bundle.ofParts { info with comment := info.comment <|> w.bundler.comment }
              w.bundler.changes with
          | error e => rfl
          | ok bundle =>
              rw [← (Bundle.parts_of_ofParts hparts).1]
              rfl

/-! ## Operations -/

/-- What can be asked of a bundle under construction. -/
inductive Operation where
  | addChange (c : Change)
  | setComment (comment : String)
  | sealWith (info : BundleInfo)

/-- What a successful operation answers. -/
inductive Answer where
  | added (address : PendingMuid)
  | commented
  | sealed (bundle : Bundle)
deriving DecidableEq

/-- Carries out an operation. -/
def perform : Operation → Work Answer
  | .addChange c => return .added (← addChange c)
  | .setComment comment => do
    setComment comment
    return .commented
  | .sealWith info => return .sealed (← sealWith info)

/-- The address that an operation has handed out, with the change that it is the address of. -/
def handedOut? : Operation → Except BundleError Answer → Option (Change × PendingMuid)
  | .addChange c, .ok (.added pending) => some (c, pending)
  | _, _ => none

/-- Carries out some operations one after another, whether or not they fail, and lists what they
have handed out. -/
def run (w : Building) : List Operation → Building × List (Change × PendingMuid)
  | [] => (w, [])
  | op :: rest =>
    let (answer, w') := (perform op).runOn w
    ((w'.run rest).1, (handedOut? op answer).toList ++ (w'.run rest).2)

/-- The full form of an address, which it has once the bundle is sealed. -/
def resolve? (w : Building) (pending : PendingMuid) : Option Muid := w.slot.map pending.resolve

/-- What an operation can do: fail and change nothing, or succeed on a bundle that is not sealed. -/
inductive Outcome (w : Building) : Operation → Except BundleError Answer × Building → Prop where
  | failed (op : Operation) (e : BundleError) : Outcome w op (.error e, w)
  | added {c : Change} (hopen : w.bundler.sealed = none) (hvalid : c.validate = .ok ()) :
      Outcome w (.addChange c) (.ok (.added ⟨UInt32.ofNat (w.bundler.changes.length + 1)⟩),
        { w with bundler.changes := w.bundler.changes ++ [c] })
  | commented {comment : String} (hopen : w.bundler.sealed = none) :
      Outcome w (.setComment comment)
        (.ok .commented, { w with bundler.comment := some comment })
  | sealed {info : BundleInfo} {bundle : Bundle} (hopen : w.bundler.sealed = none)
      (hchanges : bundle.changes = w.bundler.changes) :
      Outcome w (.sealWith info) (.ok (.sealed bundle),
        ⟨{ w.bundler with sealed := some bundle }, w.slot <|> some bundle.info⟩)

theorem outcome_perform (w : Building) (op : Operation) : Outcome w op ((perform op).runOn w) := by
  cases op with
  | addChange c =>
      simp only [perform, runOn_bind, runOn_pure, runOn_addChange]
      cases hadd : w.bundler.addChange c with
      | error e => exact .failed _ e
      | ok added =>
          obtain ⟨b, pending⟩ := added
          obtain ⟨hopen, hvalid, rfl, rfl⟩ := Bundler.addChange_eq_ok hadd
          exact .added hopen hvalid
  | setComment comment =>
      simp only [perform, runOn_bind, runOn_pure, runOn_setComment]
      cases hset : w.bundler.setComment comment with
      | error e => exact .failed _ e
      | ok b =>
          obtain ⟨hopen, rfl⟩ := Bundler.setComment_eq_ok hset
          exact .commented hopen
  | sealWith info =>
      simp only [perform, runOn_bind, runOn_pure, runOn_sealWith]
      cases hseal : w.bundler.sealWith info with
      | error e => exact .failed _ e
      | ok sealed =>
          obtain ⟨b, bundle⟩ := sealed
          obtain ⟨hopen, rfl, -, hchanges⟩ := Bundler.parts_of_sealWith hseal
          exact .sealed hopen hchanges

/-- **An operation that fails changes nothing**, neither the bundler nor what addresses see. -/
theorem unchanged_of_error {op : Operation} {e : BundleError} {w' : Building}
    (h : (perform op).runOn w = (.error e, w')) : w' = w := by
  have houtcome := outcome_perform w op
  rw [h] at houtcome
  cases houtcome with
  | failed => rfl

/-- Every operation on a sealed bundle fails. -/
theorem perform_of_sealed {b : Bundle} (h : w.bundler.sealed = some b) (op : Operation) :
    (perform op).runOn w = (.error .alreadySealed, w) := by
  have hopen := Bundler.ensureOpen_of_sealed h
  cases op with
  | addChange c =>
      simp only [perform, addChange, runOn_bind, runOn_get, runOn_ofExcept, hopen]
  | setComment comment =>
      simp only [perform, setComment, runOn_bind, runOn_get, runOn_ofExcept, hopen]
  | sealWith info =>
      simp only [perform, sealWith, runOn_bind, runOn_get, runOn_ofExcept, hopen]

/-- **What is sealed stays as it is.** -/
theorem run_of_sealed {b : Bundle} (h : w.bundler.sealed = some b) (ops : List Operation) :
    w.run ops = (w, []) := by
  induction ops with
  | nil => rfl
  | cons op rest ih =>
      rw [run, perform_of_sealed h op]
      simp only [handedOut?, Option.toList_none, List.nil_append, ih]

/-! ## What has been handed out -/

/-- Changes with the addresses they get, which count from one. -/
def numbered (changes : List Change) : List (Change × PendingMuid) :=
  changes.zipIdx.map fun e => (e.1, ⟨UInt32.ofNat (e.2 + 1)⟩)

theorem numbered_concat (changes : List Change) (c : Change) : numbered (changes ++ [c])
    = numbered changes ++ [(c, ⟨UInt32.ofNat (changes.length + 1)⟩)] := by
  simp [numbered, List.zipIdx_append]

theorem map_fst_numbered (changes : List Change) : (numbered changes).map Prod.fst = changes := by
  rw [numbered, List.map_map]
  exact List.zipIdx_map_fst 0 changes

/-- The addresses of so few changes do not wrap around. -/
theorem toNat_offset_of_numbered {changes : List Change} (hsize : changes.length < 0x100000000)
    {k : Nat} {x : Change × PendingMuid} (hx : (numbered changes)[k]? = some x) :
    x.2.offset.toNat = k + 1 := by
  obtain ⟨hk, rfl⟩ := List.getElem?_eq_some_iff.mp hx
  have hlength : k < changes.length := by simpa [numbered] using hk
  simp only [numbered, List.getElem_map, List.getElem_zipIdx, Nat.zero_add]
  rw [UInt32.toNat_ofNat']
  omega

/-- What holds of a bundle under construction and what has been handed out of it. -/
structure Consistent (w : Building) (handed : List (Change × PendingMuid)) : Prop where
  /-- The changes that have been added are those of the bundler, and have their numbers. -/
  numbered : handed = numbered w.bundler.changes
  /-- Addresses see the metadata of the sealed bundle, and nothing before it is sealed. -/
  slot : w.slot = w.bundler.sealed.map (·.info)
  changes : ∀ b, w.bundler.sealed = some b → b.changes = w.bundler.changes

namespace Consistent

variable {handed : List (Change × PendingMuid)}

theorem start (comment : Option String) (medallion : Option Medallion) :
    Consistent (start comment medallion) [] where
  numbered := rfl
  slot := rfl
  changes b hb := by cases hb

theorem perform (h : Consistent w handed) (op : Operation) :
    Consistent ((perform op).runOn w).2
      (handed ++ (handedOut? op ((Building.perform op).runOn w).1).toList) := by
  have houtcome := outcome_perform w op
  generalize (Building.perform op).runOn w = result at houtcome
  cases houtcome with
  | failed op e =>
      have hfailed : handedOut? op (.error e) = none := by cases op <;> rfl
      rw [hfailed, Option.toList_none, List.append_nil]
      exact h
  | @added c hopen hvalid =>
      refine ⟨?_, h.slot, fun b hb => ?_⟩
      · rw [numbered_concat, ← h.numbered]
        rfl
      · rw [hopen] at hb
        cases hb
  | commented hopen =>
      show Consistent _ (handed ++ [])
      rw [List.append_nil]
      exact ⟨h.numbered, h.slot, h.changes⟩
  | @sealed info bundle hopen hchanges =>
      show Consistent _ (handed ++ [])
      rw [List.append_nil]
      refine ⟨h.numbered, ?_, fun b hb => ?_⟩
      · rw [h.slot, hopen]
        rfl
      · cases hb
        exact hchanges

/-- **A run of operations stays consistent**, whichever of them fail. -/
theorem run (h : Consistent w handed) (ops : List Operation) :
    Consistent (w.run ops).1 (handed ++ (w.run ops).2) := by
  induction ops generalizing w handed with
  | nil =>
      rw [Building.run, List.append_nil]
      exact h
  | cons op rest ih =>
      have hrest := ih (h.perform op)
      rw [List.append_assoc] at hrest
      exact hrest

/-- Nothing is known of an address before the bundle is sealed. -/
theorem resolve?_of_open (h : Consistent w handed) (hopen : w.bundler.sealed = none)
    (pending : PendingMuid) : w.resolve? pending = none := by
  rw [resolve?, h.slot, hopen]
  rfl

theorem resolve?_of_sealed (h : Consistent w handed) {b : Bundle} (hb : w.bundler.sealed = some b)
    (pending : PendingMuid) : w.resolve? pending = some (pending.resolve b.info) := by
  rw [resolve?, h.slot, hb]
  rfl

/-- The addresses of the changes of a sealed bundle are those that have been handed out. -/
theorem changesWithIds_eq (h : Consistent w handed) {b : Bundle}
    (hb : w.bundler.sealed = some b) :
    b.changesWithIds = handed.map fun x => (x.2.resolve b.info, x.1) := by
  rw [h.numbered, ← h.changes b hb, Bundle.changesWithIds, Building.numbered, List.map_map]
  rfl

end Consistent

theorem consistent_run (comment : Option String) (medallion : Option Medallion)
    (ops : List Operation) :
    Consistent ((start comment medallion).run ops).1 ((start comment medallion).run ops).2 :=
  (Consistent.start comment medallion).run ops

end Building

end GossipStore
