import GossipStore.Proofs.Gossip.Mesh
import Mathlib.Data.List.Nodup

set_option autoImplicit false

/-! # A mesh is safe and converges

Every step of a mesh preserves its invariant, so it holds of every reachable state
(`Mesh.Reachable.invariant`). It says of two replicas that are ready for each other that each knows
how far the other will have come; when nothing is on the way between them, both have come equally
far and hold the same bundles.
-/

namespace GossipStore

namespace Mesh

variable {α : Type} {c : Community} {history : List Bundle}
  {wire : PeerId → PeerId → List Message} {m : Mesh α} {a b : PeerId} {s : Surroundings}

/-! ## The size of a greeting -/

/-- A list is no longer than another if each of its members has an owner there and no two have the
same. -/
theorem length_le_of_owners {β γ : Type} {l : List β} {owners : List γ} (owner : β → γ → Prop)
    (hl : l.Nodup) (hown : ∀ x ∈ l, ∃ o ∈ owners, owner x o)
    (hone : ∀ x ∈ l, ∀ y ∈ l, ∀ o ∈ owners, owner x o → owner y o → x = y) :
    l.length ≤ owners.length := by
  classical
  have hchoose : ∃ f : β → Option γ, ∀ x ∈ l, ∃ o ∈ owners, f x = some o ∧ owner x o := by
    refine ⟨fun x => if h : x ∈ l then some (hown x h).choose else none, fun x hx => ?_⟩
    exact ⟨_, (hown x hx).choose_spec.1, dif_pos hx, (hown x hx).choose_spec.2⟩
  obtain ⟨f, hf⟩ := hchoose
  -- distinct members have distinct owners
  have hnodup : (l.map f).Nodup := by
    refine hl.map_on fun x hx y hy heq => ?_
    obtain ⟨o, ho, hfx, hx'⟩ := hf x hx
    obtain ⟨o', -, hfy, hy'⟩ := hf y hy
    have hsame : o' = o := Option.some.inj (hfy.symm.trans (heq.symm.trans hfx))
    exact hone x hx y hy o ho hx' (hsame ▸ hy')
  have hsub : l.map f ⊆ owners.map some := fun z hz => by
    obtain ⟨x, hx, rfl⟩ := List.mem_map.mp hz
    obtain ⟨o, ho, hfx, -⟩ := hf x hx
    exact List.mem_map.mpr ⟨o, ho, hfx.symm⟩
  have hle := hnodup.length_le_of_subset hsub
  simpa using hle

/-- A member has one chain, so nobody has seen more chains than there are members. -/
theorem Invariant.size_le (h : Invariant c history wire m) (a : PeerId) :
    (m.database a).tracker.chains.size ≤ c.members.length := by
  obtain ⟨ix, -, hholds, htracker⟩ := (h.inStep a).store
  have hkeys : ix.chains.size = ix.chains.keys.length := by
    simp [SortedMap.size, SortedMap.keys]
  have hnodup : ix.chains.keys.Nodup :=
    (ix.chains.sorted.imp fun {e f} hlt heq => by
      rw [heq] at hlt
      simp at hlt).map _ fun _ _ h => h
  rw [htracker, hkeys]
  refine length_le_of_owners
    (fun chain a => ∃ x ∈ history, x.info.chain = chain ∧ c.Mine a x.info.medallion) hnodup ?_ ?_
  · intro chain hchain
    obtain ⟨info, hinfo⟩ := SortedMap.mem_keys_iff.mp hchain
    obtain ⟨x, hx, rfl, hc⟩ := hholds.tips chain info hinfo
    obtain ⟨a, ha, hmine⟩ := h.authors x hx
    exact ⟨a, ha, x, hx, hc, hmine⟩
  · -- all that an owner has written is on the chain that it writes now
    rintro chain - chain' - a ha ⟨x, hx, rfl, hmine⟩ ⟨y, hy, rfl, hmine'⟩
    cases hown : (m.database a).chain with
    | none => exact absurd hmine (((h.owns a ha).fresh hown).2 x hx)
    | some last =>
        have htip := (h.owns a ha).tip last hown
        rw [(htip.latest x hx hmine).1, (htip.latest y hy hmine').1]

theorem Invariant.greeting_fits (h : Invariant c history wire m) (a : PeerId) :
    28 * (m.database a).tracker.chains.size < 0xfffffffffffffe00 := by
  have := h.size_le a
  have := c.few
  omega

/-! ## Steps -/

/-- Nothing becomes of the channels to a replica that takes no frame. -/
theorem Invariant.receives_refl (h : Invariant c history wire m) {seen' : Progress}
    {back' : Option Bool} (hseen : ∀ k, (m.database a).seen k ≤ seen' k) (x : PeerId)
    (hkept : back' = none → (m.database a).stage x = none)
    (hready : back' = some true → (m.database a).stage x = some true) :
    Receives (m.database a).seen seen' ((m.database a).stage x) back' (wire x a) (wire x a) :=
  .refl (h.channels x a).deliverable hseen hkept hready

/-- A commit preserves the invariant. -/
theorem Invariant.commit (h : Invariant c history wire m) (ha : a ∈ c.members) (hs : c.Sees a s)
    (bundler : Bundler) : ∃ history' wire',
      Invariant c history' wire' (m.put a ((m.database a).addBundler s bundler).1) := by
  obtain ⟨history', db, hdb, hw, hstep, howns, hseen⟩ := (h.inStep a).addBundler h.linked hs.link
    (h.owns a ha) (fun k => ⟨k, by rw [hs.medallion]⟩) bundler
  rw [hdb]
  obtain ⟨wire', h'⟩ := h.put ha rfl h.frames (fun _ _ _ => rfl) hw hstep howns rfl hseen
    (fun x => h.receives_refl hseen x id id) fun _ => .inl rfl
  exact ⟨history', wire', h'⟩

/-- The outlook of a replica once it has a peer for the sender of a frame. -/
def welcomed (m : Mesh α) (wire : PeerId → PeerId → List Message) (a b : PeerId) : Outlook :=
  if (m.database a).stage b = none then (m.outlook wire a).withPeer b false 1
  else m.outlook wire a

theorem reach_welcomed (x : PeerId) :
    (m.welcomed wire a b).reach x = settled (m.database x).seen (wire a x) := by
  unfold welcomed
  split <;> rfl

theorem stage_welcomed_self :
    (m.welcomed wire a b).stage b = some (((m.database a).stage b).getD false) := by
  unfold welcomed
  cases hb : (m.database a).stage b with
  | none =>
      rw [if_pos rfl, Outlook.stage_withPeer, if_pos rfl]
      rfl
  | some ready =>
      rw [if_neg nofun]
      exact hb

theorem stage_welcomed_other {x : PeerId} (hx : x ≠ b) :
    (m.welcomed wire a b).stage x = (m.database a).stage x := by
  unfold welcomed
  split
  · rw [Outlook.stage_withPeer, if_neg hx]
    rfl
  · rfl

theorem greeted_welcomed (x : PeerId) : (m.welcomed wire a b).greeted x = 0
    ∨ (m.welcomed wire a b).greeted x = 1 ∧ (m.database a).stage x = none := by
  unfold welcomed
  split
  · rename_i hnone
    rw [Outlook.greeted_withPeer]
    split
    · rename_i hx
      exact .inr ⟨rfl, hx ▸ hnone⟩
    · exact .inl rfl
  · exact .inl rfl

/-- Whoever sends a frame is a peer before it is handled. -/
theorem Invariant.welcome (h : Invariant c history wire m) (hs : c.Sees a s) (b : PeerId) :
    ∃ db, (m.database a).welcome s b = (db, .ok ())
      ∧ db.InStep history (m.welcomed wire a b)
      ∧ db.seen = (m.database a).seen ∧ (m.database a).SameClaims db := by
  unfold Database.welcome
  cases hp : (m.database a).peers.get? b with
  | some p =>
      have hstage : (m.database a).stage b ≠ none := by simp [Database.stage, hp]
      have hcontains : (m.database a).peers.contains b = true := by simp [SortedMap.contains, hp]
      rw [welcomed, if_neg hstage]
      exact ⟨m.database a, if_pos hcontains, h.inStep a, rfl, .refl _⟩
  | none =>
      have hstage : (m.database a).stage b = none := by simp [Database.stage, hp]
      have hcontains : ¬ (m.database a).peers.contains b = true := by simp [SortedMap.contains, hp]
      obtain ⟨db, hconnect, hstep, hseen, hclaims⟩ :=
        (h.inStep a).connect hs.link hp (h.greeting_fits a)
      rw [welcomed, if_pos hstage]
      refine ⟨db, ?_, hstep, hseen, hclaims⟩
      rw [if_neg hcontains, hconnect]
      rfl

/-- Opening a connection preserves the invariant. -/
theorem Invariant.connect (h : Invariant c history wire m) (ha : a ∈ c.members) (hs : c.Sees a s)
    (hnone : (m.database a).peers.get? b = none) :
    ∃ wire', Invariant c history wire' (m.put a ((m.database a).connect s b).1) := by
  obtain ⟨db, hconnect, hstep, hseen, hclaims⟩ :=
    (h.inStep a).connect hs.link hnone (h.greeting_fits a)
  have hstage : (m.database a).stage b = none := by simp [Database.stage, hnone]
  have hseen' (k : ChainKey) : (m.database a).seen k ≤ db.seen k := by
    rw [hseen]
    exact Std.le_refl _
  rw [hconnect]
  refine h.put ha rfl h.frames (fun _ _ _ => rfl) .refl hstep ((h.owns a ha).mono hclaims hseen')
    rfl hseen' (fun x => h.receives_refl hseen' x ?_ ?_) fun x => ?_
  · rw [Outlook.stage_withPeer]
    split
    · intro hstage
      cases hstage
    · exact id
  · rw [Outlook.stage_withPeer]
    split
    · intro hstage
      cases hstage
    · exact id
  · rw [Outlook.greeted_withPeer]
    split
    · rename_i hx
      exact .inr ⟨rfl, hx ▸ hstage⟩
    · exact .inl rfl

/-- **A frame is always handled.** Its sender is a peer by then, and the message in it is neither a
second greeting nor a bundle ahead of its predecessor. -/
theorem Invariant.handleFrame (h : Invariant c history wire m) (hs : c.Sees a s) {msg : Message}
    {rest : List Message} (hwire : wire b a = msg :: rest) (htime : m.InTime s a b) :
    ∃ db db', (m.database a).welcome s b = (db, .ok ())
      ∧ db.handleFrame s b msg.encode = (db', .ok ())
      ∧ db'.InStep history ((m.welcomed wire a b).after b msg)
      ∧ db'.seen = settle (m.database a).seen msg ∧ (m.database a).SameClaims db' := by
  obtain ⟨db, hwelcome, hstep, hseen, hclaims⟩ := h.welcome hs b
  have hchannel := h.channels b a
  rw [hwire] at hchannel
  have hbacked : Backed history ((m.welcomed wire a b).reach b) msg := by
    rw [reach_welcomed]
    exact (hchannel.backed msg List.mem_cons_self).mono (List.Subset.refl _) (le_settled _ _)
  have hstage := (hstep.sending.stage b).trans stage_welcomed_self
  obtain ⟨p, hp, hmap⟩ := Option.map_eq_some_iff.mp hstage
  have hgreet : msg.isGreeting = true → p.hasMap.isSome = false ∧ p.expire s.now = p := by
    intro hgreeting
    have hexpire := htime
    rw [InTime, hwelcome] at hexpire
    simp only [hp, Option.all_some, decide_eq_true_eq] at hexpire
    refine ⟨?_, hexpire⟩
    rw [hmap]
    cases hback : (m.database a).stage b with
    | none => rfl
    | some ready =>
        cases ready with
        | false => rfl
        | true =>
            -- no greeting is on the way to one that is ready for its sender
            have hzero := hchannel.ready hback
            rw [List.countP_cons_of_pos hgreeting] at hzero
            cases hzero
  obtain ⟨db', hhandle, hstep', hseen', hclaims'⟩ := hstep.handleFrame h.linked hs.link hp
    hbacked.fitting hbacked (hseen ▸ hchannel.deliverable.1) hgreet
  exact ⟨db, db', hwelcome, hhandle, hstep', by rw [hseen', hseen], hclaims.trans hclaims'⟩

/-- What becomes of the channel from which a frame is handled. -/
theorem Invariant.receives_frame (h : Invariant c history wire m) {msg : Message}
    {rest : List Message} (hwire : wire b a = msg :: rest) :
    Receives (m.database a).seen (settle (m.database a).seen msg) ((m.database a).stage b)
      (((m.welcomed wire a b).after b msg).stage b) (msg :: rest) rest := by
  have hchannel := h.channels b a
  rw [hwire] at hchannel
  rw [Outlook.stage_after, stage_welcomed_self]
  refine ⟨List.sublist_cons_self _ _, hchannel.deliverable.2, fun k => Std.le_refl _, ?_, ?_⟩
  · split
    · nofun
    · nofun
  · split
    · rename_i hgreeting
      have hone := hchannel.greetings
      rw [List.countP_cons_of_pos hgreeting.2] at hone
      exact fun _ => .inr ⟨List.cons_ne_nil _ _, by omega⟩
    · intro hready
      cases hback : (m.database a).stage b with
      | none =>
          rw [hback] at hready
          cases hready
      | some ready =>
          rw [hback] at hready
          exact .inl hready

/-- Handling a frame preserves the invariant. -/
theorem Invariant.deliver (h : Invariant c history wire m) (ha : a ∈ c.members) (hs : c.Sees a s)
    (hframe : m.inFlight b a ≠ []) (htime : m.InTime s a b) :
    ∃ wire', Invariant c history wire' (m.deliver s b a) := by
  cases hwire : wire b a with
  | nil =>
      rw [h.frames, hwire] at hframe
      exact absurd rfl hframe
  | cons msg rest =>
      obtain ⟨db, db', hwelcome, hhandle, hstep, hseen, hclaims⟩ := h.handleFrame hs hwire htime
      have hdeliver : m.deliver s b a = (m.take b a).put a db' := by
        rw [Mesh.deliver, h.frames, hwire, List.map_cons]
        simp only [Database.dispatch_eq, hwelcome, hhandle]
      have hseen' (k : ChainKey) : (m.database a).seen k ≤ db'.seen k := by
        rw [hseen]
        exact le_settle _ _ k
      -- the frame is off its channel, and everything else is where it was
      let wire' x y := if x = b ∧ y = a then rest else wire x y
      have htaken : wire' b a = rest := if_pos ⟨rfl, rfl⟩
      have hkept {x y : PeerId} (hxy : ¬ (x = b ∧ y = a)) : wire' x y = wire x y := if_neg hxy
      have hframes (x y : PeerId) : (m.take b a).inFlight x y = (wire' x y).map Message.encode := by
        by_cases hxy : x = b ∧ y = a
        · obtain ⟨rfl, rfl⟩ := hxy
          rw [htaken, inFlight_take_self, h.frames, hwire]
          rfl
        · rw [hkept hxy, inFlight_take_other m b hxy, h.frames]
      rw [hdeliver]
      refine h.put ha rfl hframes (fun x y hy => hkept fun hand => hy hand.2) .refl hstep
        ((h.owns a ha).mono hclaims hseen') ?_ hseen' (fun x => ?_) fun x => ?_
      · rw [Outlook.reach_after]
        exact funext reach_welcomed
      · by_cases hx : x = b
        · subst hx
          rw [htaken, hwire, hseen]
          exact h.receives_frame hwire
        · rw [hkept fun hand => hx hand.1, Outlook.stage_after, if_neg fun hand => hx hand.1,
            stage_welcomed_other hx]
          exact h.receives_refl hseen' x id id
      · rw [Outlook.greeted_after]
        exact greeted_welcomed x

/-- **The invariant holds of every reachable mesh.** -/
theorem Reachable.invariant (h : Reachable c m) :
    ∃ history wire, Invariant c history wire m := by
  induction h with
  | start => exact ⟨[], _, invariant_start c⟩
  | step _ hstep ih =>
      obtain ⟨history, wire, hinv⟩ := ih
      cases hstep with
      | commit member sees bundler => exact hinv.commit member sees bundler
      | connect member other sees new => exact ⟨history, hinv.connect member sees new⟩
      | dispatch member other sees frame inTime =>
          exact ⟨history, hinv.deliver member sees frame inTime⟩

/-! ## Convergence -/

/-- Whether a replica has a peer for another that has greeted. -/
def Ready (m : Mesh α) (a b : PeerId) : Prop :=
  ((m.database a).peers.get? b).map (·.state) = some .ready

instance (m : Mesh α) (a b : PeerId) : Decidable (m.Ready a b) :=
  inferInstanceAs (Decidable (_ = _))

/-- A replica knows of one that is ready, and to which nothing is on the way, that it has come at
least as far. -/
theorem Invariant.seen_le (h : Invariant c history wire m) (hready : m.Ready a b)
    (hquiet : m.inFlight a b = []) (k : ChainKey) :
    (m.database a).seen k ≤ (m.database b).seen k := by
  obtain ⟨p, hp, hstate⟩ := Option.map_eq_some_iff.mp hready
  have hbelieves := (h.inStep a).sending.believes b p hp
  have hwire : wire a b = [] := List.map_eq_nil_iff.mp ((h.frames a b).symm.trans hquiet)
  cases ht : p.hasMap with
  | none =>
      have hconnecting := hbelieves.state
      rw [ht, hstate] at hconnecting
      cases hconnecting
  | some t =>
      -- it is not ahead of what the other will have reached, which the other has by now
      have hbelow := hbelieves.below t ht k
      have hreach : (m.outlook wire a).reach b = settled (m.database b).seen (wire a b) := rfl
      rw [h.idle a b, hreach, hwire] at hbelow
      exact Std.le_trans (hbelieves.above t ht k) hbelow

/-- Replicas that have come equally far hold the same. -/
theorem Invariant.eq_of_seen (h : Invariant c history wire m)
    (heq : (m.database a).seen = (m.database b).seen) :
    (m.database a).store.index.bundles = (m.database b).store.index.bundles
      ∧ (m.database a).tracker = (m.database b).tracker := by
  obtain ⟨ix, hstore, hholds, htracker⟩ := (h.inStep a).store
  obtain ⟨ix', hstore', hholds', htracker'⟩ := (h.inStep b).store
  rw [Database.seen_eq_reached htracker, Database.seen_eq_reached htracker'] at heq
  obtain ⟨hbundles, hchains⟩ := hholds.eq_of_reached hholds' h.linked heq
  rw [hstore, hstore', htracker, htracker']
  exact ⟨hbundles, by rw [hchains]⟩

/-- **Gossip is safe and converges.** In every state that a mesh can get into, no peer has been
dropped; whichever frame is handled next, its sender is or becomes a peer, the frame is handled
without an error, and still no peer has been dropped; and two replicas that are ready for each other
hold the same bundles and have seen the same as soon as nothing is on the way between them. -/
theorem Reachable.safe_and_convergent (h : Reachable c m) :
    (∀ a, (m.database a).former = [])
    ∧ (∀ a b s frame rest, c.Sees a s → m.inFlight b a = frame :: rest → m.InTime s a b →
        ∃ db db', (m.database a).welcome s b = (db, .ok ())
          ∧ db.handleFrame s b frame = (db', .ok ())
          ∧ (m.database a).dispatch s b frame = (db', .ok ()) ∧ db'.former = [])
    ∧ ∀ a b, m.Ready a b → m.Ready b a → m.inFlight a b = [] → m.inFlight b a = [] →
        (m.database a).store.index.bundles = (m.database b).store.index.bundles
          ∧ (m.database a).tracker = (m.database b).tracker := by
  obtain ⟨history, wire, hinv⟩ := h.invariant
  refine ⟨fun a => (hinv.inStep a).former, ?_, ?_⟩
  · intro a b s frame rest hs hframe htime
    cases hwire : wire b a with
    | nil =>
        rw [hinv.frames, hwire] at hframe
        cases hframe
    | cons msg messages =>
        obtain ⟨db, db', hwelcome, hhandle, hstep, -⟩ := hinv.handleFrame hs hwire htime
        rw [hinv.frames, hwire, List.map_cons] at hframe
        obtain ⟨rfl, -⟩ := List.cons.inj hframe
        refine ⟨db, db', hwelcome, hhandle, ?_, hstep.former⟩
        simp only [Database.dispatch_eq, hwelcome, hhandle]
  · -- each has come at least as far as the other
    intro a b hab hba hquiet hquiet'
    exact hinv.eq_of_seen (funext fun k =>
      Std.le_antisymm (hinv.seen_le hab hquiet k) (hinv.seen_le hba hquiet' k))

/-! ## Two replicas that meet -/

namespace Encounter

/-- Two replicas that write under one medallion each. -/
def two : Community where
  members := [1, 2]
  medallion a _ := if a = 1 then 7 else 9
  keepsHistory _ := true
  config _ := { Config.default with identity := some "writer", actorId := some 5 }
  few := by decide
  distinct a ha b hb hne k l := by
    rcases List.mem_pair.mp ha with rfl | rfl <;> rcases List.mem_pair.mp hb with rfl | rfl
    · exact absurd rfl hne
    · decide
    · decide
    · exact absurd rfl hne

/-- The surroundings of one of the two. -/
def calm (a : PeerId) : Surroundings where
  now := 0
  clock := 100
  link _ := .ok ()
  medallion := two.medallion a
  isAlive _ := true
  environment := ⟨none, none, none⟩
  process := 0

theorem sees_calm (a : PeerId) : two.Sees a (calm a) := ⟨rfl, fun _ => rfl⟩

/-- A replica starts its chain and commits a bundle without changes. -/
def write (m : Mesh Unit) (a : PeerId) : Mesh Unit :=
  m.put a ((m.database a).addBundler (calm a) .new).1

/-- Both have written, and nobody knows of anybody. -/
def apart : Mesh Unit := write (write (start two) 1) 2

/-- The sender and the recipient of each of the frames that pass between them: two greetings, the
bundles that one has and the other has not, and their acknowledgements. -/
def hand (n : Nat) : PeerId × PeerId :=
  [(1, 2), (2, 1), (1, 2), (1, 2), (2, 1), (1, 2), (2, 1), (1, 2), (2, 1), (2, 1)].getD n (1, 2)

/-- The mesh after the first has connected to the second and so many frames were handled. -/
def after : Nat → Mesh Unit
  | 0 => apart.put 1 ((apart.database 1).connect (calm 1) 2).1
  | n + 1 => (after n).deliver (calm (hand n).2) (hand n).1 (hand n).2

theorem reachable_after (n : Nat) (h : n ≤ 10) : Reachable two (after n) := by
  induction n with
  | zero =>
      have hfirst : Reachable two (write (start two) 1) :=
        .step .start (.commit (by decide) (sees_calm 1) .new)
      have happart : Reachable two apart := .step hfirst (.commit (by decide) (sees_calm 2) .new)
      exact .step happart (.connect (by decide) (by decide) (sees_calm 1) (by decide +kernel))
  | succ n ih =>
      have hpass : ∀ n < 10, (hand n).2 ∈ two.members ∧ (hand n).1 ∈ two.members
          ∧ (after n).inFlight (hand n).1 (hand n).2 ≠ []
          ∧ (after n).InTime (calm (hand n).2) (hand n).2 (hand n).1 := by
        decide +kernel
      obtain ⟨member, other, frame, inTime⟩ := hpass n h
      exact .step (ih (Nat.le_of_lt h)) (.dispatch member other (sees_calm _) frame inTime)

/-- Halfway a frame is on the way to the second, which handles it. In the end both are ready, all is
quiet, and both hold the four bundles that they have written. -/
theorem safe_and_convergent_after :
    (Reachable two (after 5)
      ∧ ∃ db', ((after 5).database 2).dispatch (calm 2) 1 (((after 5).inFlight 1 2).headD [])
        = (db', .ok ()) ∧ db'.former = [])
    ∧ Reachable two (after 10) ∧ (after 10).Ready 1 2 ∧ (after 10).Ready 2 1
    ∧ (after 10).inFlight 1 2 = [] ∧ (after 10).inFlight 2 1 = []
    ∧ ((after 10).database 1).store.index.bundles = ((after 10).database 2).store.index.bundles
    ∧ ((after 10).database 1).tracker = ((after 10).database 2).tracker
    ∧ ((after 10).database 1).store.index.bundles.toList.length = 4 := by
  have hhalfway : Reachable two (after 5) := reachable_after 5 (by decide)
  have hend : Reachable two (after 10) := reachable_after 10 (by decide)
  have hready : (after 10).Ready 1 2 ∧ (after 10).Ready 2 1 := by decide +kernel
  have hquiet : (after 10).inFlight 1 2 = [] ∧ (after 10).inFlight 2 1 = [] := by decide +kernel
  obtain ⟨-, hsafe, -⟩ := hhalfway.safe_and_convergent
  obtain ⟨db, db', -, -, hdispatch, hformer⟩ := hsafe 2 1 (calm 2)
    (((after 5).inFlight 1 2).headD []) ((after 5).inFlight 1 2).tail (sees_calm 2)
    (by decide +kernel) (by decide +kernel)
  obtain ⟨hbundles, htracker⟩ :=
    hend.safe_and_convergent.2.2 1 2 hready.1 hready.2 hquiet.1 hquiet.2
  exact ⟨⟨hhalfway, db', hdispatch, hformer⟩, hend, hready.1, hready.2, hquiet.1, hquiet.2,
    hbundles, htracker, by decide +kernel⟩

end Encounter

end Mesh

end GossipStore
