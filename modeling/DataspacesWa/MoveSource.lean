import DataspacesWa.MoveReply

/-!
# Where moves come from

The directory reports a DS for what it has put and for what is in its prefetch
cache, and a datum enters the cache as soon as its prefetch is decided. A move
has a source that holds the datum as long as the first DS reported has put it,
or has it in its cache with no move of it going on.
-/
namespace MoveSource

open Function (update)
open Patch (Datum)
open Transition (Reaches free)
open WASpace (Operations)
open History (Along)
open MPBuffer (KeyVer Calling)
open MWASpace (kvOf ownKv cached)
open SDMControl ControlSteps
open MoveReply (Alone)

/-- The directory of key-versions. -/
abbrev Dir := MWASpace.State

def kvId (kv : KeyVer) : String := kv.1 ++ "_" ++ toString kv.2.toNat

theorem dataId_kvId (d : Datum) : dataId Dir d = kvId (kvOf d) := rfl

theorem kvId_inj {kv kv' : KeyVer} (h : kvId kv = kvId kv') : kv = kv' := by
  have hbox : ∀ kv : KeyVer, kvId kv = Patch.getDataId .kv ⟨kv.1, kv.2, .replicate 3 0, .replicate 3 0⟩ := fun _ => rfl
  rw [hbox, hbox] at h
  obtain ⟨hkey, hver⟩ := Patch.getDataId_kv h
  exact Prod.ext hkey hver

/-- The DS has put the datum, or a move of it to the DS has come to its end. -/
def Held (log : List Event) (x : Int32) (kv : KeyVer) : Prop :=
  ∃ d, kvOf d = kv ∧ (.putAt x d ∈ log ∨ .stored x d ∈ log)

/-- A move goes from a DS that holds the datum to another. -/
def Needs (pre : List Event) : Event → Prop
  | .issued fromId toId d => fromId ≠ toId ∧ Held pre fromId (kvOf d)
  | _ => True

def Valid (s : State Dir) : Prop := Along Needs s.log

/-- The directory reports the DS for what it has itself, or for what has come to its cache. -/
def Lasting (s : State Dir) (x : Int32) (kv : KeyVer) : Prop :=
  ownKv s.space x kv = true ∨ cached s.space x kv = true ∧ kvId kv ∉ s.moving x

/-- The destination has no part in the datum, and the first DS reported has it for good. -/
def Sound (s : State Dir) (toId : Int32) (d : Datum) : Prop :=
  (ownKv s.space toId (kvOf d) = false ∧ cached s.space toId (kvOf d) = false) ∧
    ∀ fromId ∈ (MWASpace.query s.space d).bind List.head?, Lasting s fromId (kvOf d)

instance (s : State Dir) (x : Int32) (kv : KeyVer) : Decidable (Lasting s x kv) :=
  instDecidableOr

instance decidableSound (s : State Dir) (toId : Int32) (d : Datum) : Decidable (Sound s toId d) :=
  @instDecidableAnd _ _ inferInstance (Option.decidableForallMem _)

/-- Each query made for a move has a sound answer, each put is recorded at the DS it was made at,
and move replies find their own waits. -/
def Sourced (me : Int32) (s : State Dir) (a : Action) : Prop :=
  Alone me s a ∧
    match a with
    | .thread t _ =>
      match s.threads[t]? with
      | some (.run (.query j)) => Sound s j.toId j.datum
      | some (.run (.requery j)) => Sound s j.toId j.datum
      | some (.run (.mquery _ d)) => ∀ fromId ∈ (MWASpace.query s.space d).bind List.head?,
          fromId = me ∨ Lasting s fromId (kvOf d)
      | some (.run (.mrequery _ d)) => ∀ fromId ∈ (MWASpace.query s.space d).bind List.head?,
          fromId = me ∨ Lasting s fromId (kvOf d)
      | some (.run (.putNotification id pId _)) => ∀ x ∈ s.space.appDsId pId, x = id
      | some (.run (.putSpace pId _)) => ∀ x ∈ s.space.appDsId pId, x = me
      | some (.run (.remoteSpace _)) => ∀ x ∈ s.space.appDsId remotePId, x = me
      | _ => True
    | _ => True

instance (me : Int32) (s : State Dir) (a : Action) : Decidable (Sourced me s a) := by
  refine @instDecidableAnd _ _ inferInstance ?_
  induction a using SDMControl.Action.casesOn with
  | thread t c =>
    dsimp only
    generalize s.threads[t]? = th
    refine match th with
    | none => .isTrue trivial
    | some (.calling _ _ _) => .isTrue trivial
    | some (.run prog) => ?_
    induction prog using Prog.casesOn with
    | query j => exact decidableSound s j.toId j.datum
    | requery j => exact decidableSound s j.toId j.datum
    | mquery cId d => exact Option.decidableForallMem _
    | mrequery cId d => exact Option.decidableForallMem _
    | putNotification id pId d => exact Option.decidableForallMem _
    | putSpace pId d => exact Option.decidableForallMem _
    | remoteSpace d => exact Option.decidableForallMem _
    | _ => exact .isTrue trivial
  | _ => exact .isTrue trivial

/-- The datum is on its way to the DS, or has come to it. -/
def Fetched (s : State Dir) (x : Int32) (kv : KeyVer) : Prop :=
  kvId kv ∈ s.moving x ∨ ∃ d, kvOf d = kv ∧ .stored x d ∈ s.log

/-- The access that a job is made for is inside the call for it. -/
def callOf (x : Int32) (d : Datum) : Int32 × Calling → Prop
  | (y, .prefetch kv _) => y = x ∧ kv = kvOf d
  | (_, .del _) => False

def prefetching (j : Job Dir) : Prop :=
  match j.origin with
  | .squery _ _ => True
  | .prefetch k => callOf j.toId j.datum k

/-- What a prefetch is for is on its way from the mark on. -/
def claimed (s : State Dir) (j : Job Dir) : Prop :=
  match j.origin with
  | .squery _ _ => True
  | .prefetch _ => Fetched s j.toId (kvOf j.datum)

/-- The datum that an access is about to put into the cache is on its way. -/
def cacheable (s : State Dir) : Int32 × Calling → Prop
  | (x, .prefetch kv _) => Fetched s x kv
  | (_, .del _) => True

/-- What a thread is about to do is backed by what has happened. -/
def Backed (me : Int32) (s : State Dir) : Prog Dir → Prop
  | .check j => prefetching j
  | .push j => prefetching j
  | .query j => prefetching j ∧ claimed s j
  | .requery j => prefetching j ∧ claimed s j
  | .act j fromId => prefetching j ∧ claimed s j ∧ fromId ≠ j.toId ∧ Held s.log fromId (kvOf j.datum)
  | .send j fromId => prefetching j ∧ claimed s j ∧ fromId ≠ j.toId ∧ Held s.log fromId (kvOf j.datum)
  | .mact _ d fromId => fromId = me ∨ Held s.log fromId (kvOf d)
  | .msend _ d fromId => fromId ≠ me ∧ Held s.log fromId (kvOf d)
  | .resume k => cacheable s k
  | .del _ _ k => ∃ x kv, k = (x, .del kv)
  | .putNotification id _ d => .putAt id d ∈ s.log
  | .putSpace _ d => .putAt me d ∈ s.log
  | .remotePut d => .stored me d ∈ s.log
  | .remoteSpace d => .stored me d ∈ s.log
  | _ => True

structure Inv (me : Int32) (s : State Dir) : Prop where
  replies : MoveReply.Inv me s
  valid : Valid s
  own : ∀ x kv, ownKv s.space x kv = true → Held s.log x kv
  cached : ∀ x kv, cached s.space x kv = true → Fetched s x kv
  backed : ∀ th ∈ s.threads, Backed me s (todo th)
  notified : ∀ id pId d, .putNotification id pId d ∈ s.net → .putAt id d ∈ s.log
  stored : ∀ id d, .moveReplied id d ∈ s.log → .stored id d ∈ s.log

theorem needs_grows (pre more : List Event) (e : Event) (h : Needs pre e) : Needs (pre ++ more) e := by
  cases e <;> first | trivial | skip
  obtain ⟨hne, d', hd, hput | hstored⟩ := h
  · exact ⟨hne, d', hd, .inl (List.mem_append_left _ hput)⟩
  · exact ⟨hne, d', hd, .inr (List.mem_append_left _ hstored)⟩

section Grow
variable {me : Int32} {s s' : State Dir}

/-- What has happened stays so, and what is on its way stays on its way or has come. -/
structure Later (s s' : State Dir) : Prop where
  log : ∀ ev ∈ s.log, ev ∈ s'.log
  fetched : ∀ x kv, Fetched s x kv → Fetched s' x kv

theorem Held.later {log log' : List Event} {x : Int32} {kv : KeyVer} (h : Held log x kv)
    (hlog : ∀ ev ∈ log, ev ∈ log') : Held log' x kv := by
  obtain ⟨d, hd, hput | hstored⟩ := h
  · exact ⟨d, hd, .inl (hlog _ hput)⟩
  · exact ⟨d, hd, .inr (hlog _ hstored)⟩

theorem claimed_later (h : Later s s') {j : Job Dir} (hj : claimed s j) : claimed s' j := by
  unfold claimed at hj ⊢
  split at hj
  · trivial
  · exact h.fetched _ _ hj

theorem cacheable_later (h : Later s s') {k : Int32 × Calling} (hk : cacheable s k) : cacheable s' k := by
  obtain ⟨x, calling⟩ := k
  cases calling with
  | del kv => trivial
  | prefetch kv kvV => exact h.fetched x kv hk

theorem Backed.later (h : Later s s') {prog : Prog Dir} (hp : Backed me s prog) : Backed me s' prog := by
  cases prog <;> try exact hp
  case query j => exact ⟨hp.1, claimed_later h hp.2⟩
  case requery j => exact ⟨hp.1, claimed_later h hp.2⟩
  case act j fromId => exact ⟨hp.1, claimed_later h hp.2.1, hp.2.2.1, hp.2.2.2.later h.log⟩
  case send j fromId => exact ⟨hp.1, claimed_later h hp.2.1, hp.2.2.1, hp.2.2.2.later h.log⟩
  case mact cId d fromId => exact hp.imp_right fun hh => hh.later h.log
  case msend cId d fromId => exact ⟨hp.1, hp.2.later h.log⟩
  case resume k => exact cacheable_later h hp
  case putNotification id pId d => exact h.log _ hp
  case putSpace pId d => exact h.log _ hp
  case remotePut d => exact h.log _ hp
  case remoteSpace d => exact h.log _ hp

/-- The access goes on when its job is over. -/
theorem backed_after {j : Job Dir} (hp : prefetching j) (hc : claimed s j) : Backed me s j.after := by
  unfold prefetching at hp
  unfold claimed at hc
  unfold Job.after
  cases horigin : j.origin with
  | squery appId blocking => trivial
  | prefetch k =>
    simp only [horigin] at hp hc
    obtain ⟨x, calling⟩ := k
    cases calling with
    | del kv => exact hp.elim
    | prefetch kv kvV =>
      obtain ⟨rfl, rfl⟩ := hp
      exact hc

end Grow

section Effect
variable {me : Int32} {s : State Dir} {t : Nat} {c : Choice} {prog : Prog Dir} {e : Effect Dir}

/-- The steps that record a put. -/
inductive Records : Prog Dir → Int32 → Datum → Prop where
  | notified (id pId : Int32) (d : Datum) : Records (.putNotification id pId d) pId d
  | here (pId : Int32) (d : Datum) : Records (.putSpace pId d) pId d
  | remote (d : Datum) : Records (.remoteSpace d) remotePId d

/-- The steps that change the space, each with what it calls. -/
theorem effect_space_cases (he : effect me s t c prog = some e) :
    e.space = s.space ∨
      (∃ pId d done, Records prog pId d ∧ MWASpace.put s.space pId d = some (e.space, done)) ∨
      (∃ cId d next, prog = .addAccess cId d ∧
        MWASpace.addAccess s.space cId d c.predicted = some (e.space, next)) ∨
      (∃ k next, prog = .resume k ∧ MWASpace.resume s.space c.predicted k = some (e.space, next)) ∨
      (∃ id, e.space = MWASpace.regDs s.space id) ∨
      ∃ appId id, MWASpace.regApp s.space appId id = some e.space := by
  revert he
  fun_cases effect me s t c prog
  all_goals
    intro he
    simp only [access, notify, Option.map_eq_some_iff, Option.some.injEq, reduceCtorEq] at he
  all_goals first
    | (subst he; exact .inl rfl)
    | (obtain ⟨_, _, rfl⟩ := he; exact .inl rfl)
    | (obtain ⟨_, ⟨_, _, rfl⟩, rfl⟩ := he; exact .inl rfl)
    | (obtain ⟨_, hput, rfl⟩ := he; exact .inr (.inl ⟨_, _, _, .notified _ _ _, hput⟩))
    | (obtain ⟨_, hput, rfl⟩ := he; exact .inr (.inl ⟨_, _, _, .here _ _, hput⟩))
    | (obtain ⟨_, hput, rfl⟩ := he; exact .inr (.inl ⟨_, _, _, .remote _, hput⟩))
    | (obtain ⟨_, hacc, rfl⟩ := he; exact .inr (.inr (.inl ⟨_, _, _, rfl, hacc⟩)))
    | (obtain ⟨_, hres, rfl⟩ := he; exact .inr (.inr (.inr (.inl ⟨_, _, rfl, hres⟩))))
    | (subst he; exact .inr (.inr (.inr (.inr (.inl ⟨_, rfl⟩)))))
    | (subst he; exact .inr (.inr (.inr (.inr (.inr ⟨_, _, by assumption⟩)))))

/-- What is reported as put was, or is put in this step where its app is registered. -/
theorem effect_own (he : effect me s t c prog = some e) {x : Int32} {kv : KeyVer} (hx : ownKv e.space x kv = true) :
    ownKv s.space x kv = true ∨ ∃ pId d, Records prog pId d ∧ kvOf d = kv ∧ s.space.appDsId pId = some x := by
  rcases effect_space_cases he with hsame | ⟨pId, d, done, hprog, hput⟩ | ⟨_, _, _, -, hacc⟩ | ⟨_, _, -, hres⟩ |
    ⟨id, hreg⟩ | ⟨_, _, hreg⟩
  · exact .inl (by rwa [hsame] at hx)
  · rcases MWASpace.put_cases hput with ⟨-, -, hsame⟩ | ⟨y, hy, -, -, -, -, -, hown⟩
    · exact .inl (by rwa [hsame] at hx)
    · rcases (hown x kv).mp hx with hold | ⟨rfl, rfl⟩
      · exact .inl hold
      · exact .inr ⟨pId, d, hprog, rfl, hy⟩
  · exact .inl (by rwa [MWASpace.ownKv_congr (MWASpace.addAccess_kept hacc).dsKv] at hx)
  · exact .inl (by rwa [MWASpace.ownKv_congr (MWASpace.resume_kept hres).dsKv] at hx)
  · exact .inl (by rwa [hreg, MWASpace.regDs_ownKv] at hx)
  · exact .inl (by rwa [(MWASpace.regApp_frame hreg).1] at hx)

/-- What is in a cache was, or comes into it with the return from its prefetch. -/
theorem effect_cached (he : effect me s t c prog = some e) {x : Int32} {kv : KeyVer} (hx : cached e.space x kv = true) :
    cached s.space x kv = true ∨ ∃ kvV, prog = .resume (x, .prefetch kv kvV) := by
  rcases effect_space_cases he with hsame | ⟨_, _, _, -, hput⟩ | ⟨_, _, _, -, hacc⟩ | ⟨k, _, rfl, hres⟩ |
    ⟨id, hreg⟩ | ⟨_, _, hreg⟩
  · exact .inl (by rwa [hsame] at hx)
  · exact .inl (by rwa [MWASpace.put_cached hput] at hx)
  · exact .inl (by rwa [(MWASpace.addAccess_cases hacc).1] at hx)
  · rcases (MWASpace.resume_cases hres).1 x kv hx with hold | ⟨kvV, rfl⟩
    · exact .inl hold
    · exact .inr ⟨kvV, rfl⟩
  · exact .inl (MWASpace.regDs_cached id (by rwa [hreg] at hx))
  · exact .inl (by rwa [(MWASpace.regApp_frame hreg).2] at hx)

/-- A mark goes when its wait is over, and the transfer is over before that. -/
theorem effect_later (hi : Inv me s) (ht : s.threads[t]? = some (.run prog)) (he : effect me s t c prog = some e) :
    Later s (s.apply t e) where
  log ev hev := List.mem_append_left _ hev
  fetched x kv h := by
    rcases h with hmoving | ⟨d, hd, hstored⟩
    · rcases effect_moving he with hsame | ⟨j, -, hpush⟩ | ⟨toId, d, rfl, -, herase⟩
      · left
        show kvId kv ∈ e.moving x
        rwa [hsame]
      · left
        show kvId kv ∈ e.moving x
        rw [hpush]
        by_cases hx : x = j.toId
        · subst hx
          simp [hmoving]
        · simpa [hx] using hmoving
      · by_cases hover : x = toId ∧ kv = kvOf d
        · obtain ⟨rfl, rfl⟩ := hover
          obtain ⟨d', hh, hd'⟩ := hi.replies.erase_handled ht
          have hreplied := hi.replies.sent _ d' (.inr (.inr ⟨_, hh⟩))
          exact .inr ⟨d', kvId_inj hd', List.mem_append_left _ (hi.stored _ d' hreplied)⟩
        · left
          show kvId kv ∈ e.moving x
          rw [herase]
          by_cases hx : x = toId
          · subst hx
            have hne : kvId kv ≠ dataId Dir d := fun h => hover ⟨rfl, kvId_inj h⟩
            simpa [List.mem_erase_of_ne hne] using hmoving
          · simpa [hx] using hmoving
    · exact .inr ⟨d, hd, List.mem_append_left _ hstored⟩

/-- Who has the datum for good holds it. -/
theorem Lasting.held (hi : Inv me s) {x : Int32} {kv : KeyVer} (h : Lasting s x kv) : Held s.log x kv := by
  rcases h with hown | ⟨hcached, hidle⟩
  · exact hi.own x kv hown
  · rcases hi.cached x kv hcached with hmoving | ⟨d, hd, hstored⟩
    · exact absurd hmoving hidle
    · exact ⟨d, hd, .inr hstored⟩

/-- A sound answer begins with another DS, which holds the datum. -/
theorem Sound.source (hi : Inv me s) {toId fromId : Int32} {d : Datum} {dsIdV : List Int32} (h : Sound s toId d)
    (hquery : MWASpace.query s.space d = some dsIdV) (hhead : dsIdV.head? = some fromId) :
    fromId ≠ toId ∧ Held s.log fromId (kvOf d) := by
  have hlasting := h.2 fromId (by simp [hquery, hhead])
  refine ⟨?_, hlasting.held hi⟩
  rintro rfl
  rcases hlasting with hown | ⟨hcached, -⟩
  · cases h.1.1.symm.trans hown
  · cases h.1.2.symm.trans hcached

/-- An access goes on to what its call is for. -/
theorem backed_afterAccess {next : Option (WASpace.ActCall × Int32 × Calling)}
    (hfits : ∀ call k, next = some (call, k) → MWASpace.Fits call k) : Backed me s (afterAccess (W := Dir) next) := by
  cases next with
  | none => trivial
  | some r =>
    obtain ⟨⟨act, toId, d⟩, x, calling⟩ := r
    have h := hfits _ _ rfl
    cases calling with
    | del kv =>
      obtain ⟨rfl, -, -⟩ := h
      exact ⟨x, kv, rfl⟩
    | prefetch kv kvV =>
      obtain ⟨rfl, rfl, rfl⟩ := h
      exact ⟨rfl, rfl⟩

/-- What a thread goes on to is backed, by what it was about to do and what it does. -/
theorem effect_backed (hi : Inv me s) (hok : Sourced me s (.thread t c)) (ht : s.threads[t]? = some (.run prog))
    (he : effect me s t c prog = some e) (hp : Backed me s prog) : Backed me (s.apply t e) (todo e.thread) := by
  have hlater := effect_later hi ht he
  have hguard := hok.2
  simp only [ht] at hguard
  have hsource : ∀ j : Job Dir, Sound s j.toId j.datum → prefetching j ∧ claimed s j → ∀ dsIdV,
      MWASpace.query s.space j.datum = some dsIdV → ∀ fromId, dsIdV.head? = some fromId →
      Backed me (s.apply t e) (.act j fromId) := by
    intro j hsound hj dsIdV hquery fromId hhead
    obtain ⟨hne, hheld⟩ := hsound.source hi hquery hhead
    exact ⟨hj.1, claimed_later hlater hj.2, hne, hheld.later hlater.log⟩
  have hmaster : ∀ cId d, (∀ fromId ∈ (MWASpace.query s.space d).bind List.head?,
      fromId = me ∨ Lasting s fromId (kvOf d)) → ∀ dsIdV, MWASpace.query s.space d = some dsIdV →
      ∀ fromId, dsIdV.head? = some fromId → Backed me (s.apply t e) (.mact cId d fromId) := by
    intro cId d hsound dsIdV hquery fromId hhead
    exact (hsound fromId (by simp [hquery, hhead])).imp_right fun h => (h.held hi).later hlater.log
  have hover : ∀ j : Job Dir, prefetching j ∧ claimed s j → Backed me (s.apply t e) j.after :=
    fun j hj => backed_after hj.1 (claimed_later hlater hj.2)
  cases prog with
  | check j =>
    simp only [effect] at he
    split at he <;> obtain rfl := Option.some.inj he
    · rename_i hmem
      refine hover j ⟨hp, ?_⟩
      unfold claimed
      split
      · trivial
      · exact .inl hmem
    · exact hp
  | push j =>
    obtain rfl := Option.some.inj he
    refine ⟨hp, ?_⟩
    unfold claimed
    split
    · trivial
    · exact .inl (by simp [State.apply, dataId_kvId])
  | query j =>
    simp only [effect] at he
    split at he
    · rename_i dsIdV hquery
      obtain ⟨fromId, hhead, rfl⟩ := Option.map_eq_some_iff.mp he
      exact hsource j hguard hp dsIdV hquery fromId hhead
    · split at he <;> obtain rfl := Option.some.inj he
      · exact Backed.later hlater hp
      · exact hover j hp
  | requery j =>
    simp only [effect] at he
    split at he
    · rename_i dsIdV hquery
      obtain ⟨fromId, hhead, rfl⟩ := Option.map_eq_some_iff.mp he
      exact hsource j hguard hp dsIdV hquery fromId hhead
    · obtain rfl := Option.some.inj he
      exact hover j hp
  | act j fromId =>
    obtain rfl := Option.some.inj he
    exact Backed.later hlater hp
  | send j fromId =>
    rw [show todo e.thread = j.after from effect_next he]
    exact hover j ⟨hp.1, hp.2.1⟩
  | mquery cId d =>
    simp only [effect] at he
    split at he
    · rename_i dsIdV hquery
      obtain ⟨fromId, hhead, rfl⟩ := Option.map_eq_some_iff.mp he
      exact hmaster cId d hguard dsIdV hquery fromId hhead
    · obtain rfl := Option.some.inj he
      trivial
  | mrequery cId d =>
    simp only [effect] at he
    split at he
    · rename_i dsIdV hquery
      obtain ⟨fromId, hhead, rfl⟩ := Option.map_eq_some_iff.mp he
      exact hmaster cId d hguard dsIdV hquery fromId hhead
    · obtain rfl := Option.some.inj he
      trivial
  | mact cId d fromId =>
    obtain rfl := Option.some.inj he
    by_cases hme : fromId = me
    · simp [goOn, todo, hme, Backed]
    · simpa [goOn, todo, hme, Backed] using (hp.resolve_left hme).later hlater.log
  | addAccess cId d =>
    obtain ⟨⟨w, next⟩, hacc, rfl⟩ := Option.map_eq_some_iff.mp he
    exact backed_afterAccess (MWASpace.addAccess_cases hacc).2
  | resume k =>
    obtain ⟨⟨w, next⟩, hres, rfl⟩ := Option.map_eq_some_iff.mp he
    exact backed_afterAccess (MWASpace.resume_cases hres).2
  | del toId d k =>
    obtain ⟨x, kv, rfl⟩ := hp
    rw [show todo e.thread = .resume (x, .del kv) from effect_next he]
    trivial
  | put pId d =>
    simp only [effect] at he
    split at he
    · obtain rfl := Option.some.inj he
      trivial
    · obtain ⟨_, hn, rfl⟩ := Option.map_eq_some_iff.mp he
      obtain ⟨_, -, rfl⟩ := Option.map_eq_some_iff.mp hn
      exact List.mem_append_right _ (List.mem_singleton.mpr rfl)
  | remotePut d =>
    rcases effect_next he with hn | hn <;> rw [hn]
    · trivial
    · exact hlater.log _ hp
  | remoteSpace d =>
    rcases effect_next he with hn | ⟨_, hn⟩ <;> rw [hn] <;> trivial
  | regAppHere appId req =>
    rw [show todo e.thread = req.prog appId from effect_next he]
    cases req <;> trivial
  | get cId blocking d => rcases effect_next he with hn | hn | hn <;> rw [hn] <;> trivial
  | msend cId d fromId => rcases effect_next he with hn | hn <;> rw [hn] <;> trivial
  | mgot cId d => rcases effect_next he with hn | hn <;> rw [hn] <;> trivial
  | regApp id appId => rcases effect_next he with hn | hn <;> rw [hn] <;> trivial
  | putNotification id pId d =>
    obtain ⟨done, hn⟩ := effect_next he
    rw [hn]
    trivial
  | erase toId d =>
    rw [show todo e.thread = .reply toId d from effect_next he]
    trivial
  | _ =>
    rw [show todo e.thread = .ended from effect_next he]
    trivial

end Effect

section Step
variable {me : Int32} {s s' : State Dir} {t : Nat} {c : Choice}

theorem inv_init (me : Int32) (maxNumKeyVer : Int) (wPrefetch : Bool) :
    Inv me (init me (MWASpace.empty maxNumKeyVer wPrefetch)) where
  replies := MoveReply.inv_init me _
  valid := History.along_nil
  own x kv h := by
    have hnone : ownKv (MWASpace.empty maxNumKeyVer wPrefetch) x kv = true := (MWASpace.regDs_ownKv x).symm.trans h
    cases hnone
  cached x kv h := by
    have hnone : cached (MWASpace.empty maxNumKeyVer wPrefetch) x kv = true := MWASpace.regDs_cached me h
    cases hnone
  backed _ h := by simp [init] at h
  notified _ _ _ h := by simp [init] at h
  stored _ _ h := by simp [init] at h

theorem inv_effect {prog : Prog Dir} {e : Effect Dir} (hi : Inv me s) (hok : Sourced me s (.thread t c))
    (ht : s.threads[t]? = some (.run prog)) (he : effect me s t c prog = some e)
    (hreplies : MoveReply.Inv me (s.apply t e)) : Inv me (s.apply t e) := by
  have hlater := effect_later hi ht he
  have hp : Backed me s prog := hi.backed _ (List.mem_of_getElem? ht)
  have hguard := hok.2
  simp only [ht] at hguard
  constructor
  case replies => exact hreplies
  case valid =>
    refine hi.valid.append needs_grows fun ev hev => ?_
    cases ev with
    | issued fromId toId d =>
      have h := effect_events he hev
      simp only [reduceCtorEq, and_false, exists_false, false_or, or_false, Event.issued.injEq] at h
      rcases h with ⟨j, _, rfl, rfl, rfl, rfl⟩ | ⟨cId, _, _, rfl, rfl, rfl, rfl⟩
      · exact ⟨hp.2.2.1, hp.2.2.2⟩
      · exact hp
    | _ => trivial
  case own =>
    intro x kv hx
    rcases effect_own he hx with hold | ⟨pId, d, hrecords, rfl, happ⟩
    · exact (hi.own x kv hold).later hlater.log
    · cases hrecords with
      | notified id =>
        obtain rfl := hguard x happ
        exact ⟨d, rfl, .inl (hlater.log _ hp)⟩
      | here =>
        obtain rfl := hguard x happ
        exact ⟨d, rfl, .inl (hlater.log _ hp)⟩
      | remote =>
        obtain rfl := hguard x happ
        exact ⟨d, rfl, .inr (hlater.log _ hp)⟩
  case cached =>
    intro x kv hx
    rcases effect_cached he hx with hold | ⟨kvV, rfl⟩
    · exact hlater.fetched x kv (hi.cached x kv hold)
    · exact hlater.fetched x kv hp
  case backed =>
    intro th hth
    obtain ⟨u, hu⟩ := List.getElem?_of_mem hth
    rcases Pool.commit_cases hu with ⟨-, rfl⟩ | ⟨-, hold⟩ | ⟨-, hstarted⟩
    · exact effect_backed hi hok ht he hp
    · exact (hi.backed th (List.mem_of_getElem? hold)).later hlater
    · rcases effect_started_mem he hstarted with ⟨_, _, _, rfl⟩ | ⟨_, _, rfl⟩ <;> trivial
  case notified =>
    intro id pId d hm
    rcases List.mem_append.mp hm with hold | hnew
    · exact hlater.log _ (hi.notified id pId d hold)
    · rcases effect_sent he hnew with ⟨_, _, _, ⟨_, h⟩ | ⟨_, h⟩⟩ | ⟨_, _, _, h⟩ | ⟨_, _, _, _, h⟩ |
        ⟨_, _, _, _, h⟩ | ⟨_, _, _, h⟩ <;> cases h
  case stored =>
    intro id d hev
    rcases List.mem_append.mp hev with hold | hnew
    · exact hlater.log _ (hi.stored id d hold)
    · have h := effect_events he hnew
      simp only [reduceCtorEq, and_false, exists_false, false_or, or_false, Event.moveReplied.injEq] at h
      obtain ⟨_, _, rfl, -, -, rfl, rfl⟩ := h
      exact hlater.log _ hp

/-- New threads that are backed and new events, where the space and the marks stay as they are. -/
theorem Inv.frame (hi : Inv me s) (hreplies : MoveReply.Inv me s') (hmoving : s'.moving = s.moving)
    (hspace : s'.space = s.space) {more : List Event} (hlog : s'.log = s.log ++ more)
    (hthreads : ∀ th ∈ s'.threads, (∃ th' ∈ s.threads, todo th' = todo th) ∨ Backed me s' (todo th))
    (hmore : ∀ ev ∈ more, Needs s.log ev ∧ ∀ id d, ev = .moveReplied id d → .stored id d ∈ more)
    (hnet : ∀ id pId d, .putNotification id pId d ∈ s'.net →
      .putNotification id pId d ∈ s.net ∨ .putAt id d ∈ more) : Inv me s' := by
  have hold : ∀ ev ∈ s.log, ev ∈ s'.log := fun ev hev => hlog ▸ List.mem_append_left _ hev
  have hnew : ∀ ev ∈ more, ev ∈ s'.log := fun ev hev => hlog ▸ List.mem_append_right _ hev
  have hlater : Later s s' := by
    refine ⟨hold, fun x kv h => h.imp (fun hmem => hmoving ▸ hmem) ?_⟩
    rintro ⟨d, hd, hstored⟩
    exact ⟨d, hd, hold _ hstored⟩
  constructor
  case replies => exact hreplies
  case valid =>
    have hvalid := History.Along.append hi.valid needs_grows fun ev hev => (hmore ev hev).1
    rwa [← hlog] at hvalid
  case own =>
    intro x kv hx
    rw [hspace] at hx
    exact (hi.own x kv hx).later hold
  case cached =>
    intro x kv hx
    rw [hspace] at hx
    exact hlater.fetched x kv (hi.cached x kv hx)
  case backed =>
    intro th hth
    rcases hthreads th hth with ⟨th', hth', htodo⟩ | hb
    · rw [← htodo]
      exact (hi.backed th' hth').later hlater
    · exact hb
  case notified =>
    intro id pId d hm
    rcases hnet id pId d hm with hin | hput
    · exact hold _ (hi.notified id pId d hin)
    · exact hnew _ hput
  case stored =>
    intro id d hev
    rw [hlog] at hev
    rcases List.mem_append.mp hev with hin | hin
    · exact hold _ (hi.stored id d hin)
    · exact hnew _ ((hmore _ hin).2 id d rfl)

theorem inv_thread (hi : Inv me s) (hok : Sourced me s (.thread t c)) (hs : threadStep me s t c = some s') :
    Inv me s' := by
  have hreplies := MoveReply.inv_thread hi.replies hok.1 hs
  have hcalling : ∀ {p : UInt32} {call : Syncer.Call} {next : Prog Dir} (e : Effect Dir),
      s.threads[t]? = some (.calling p call next) → todo e.thread = next → e.started = [] →
      ∀ th ∈ (s.apply t e).threads, ∃ th' ∈ s.threads, todo th' = todo th := by
    intro p call next e ht htodo hnone th hth
    obtain ⟨u, hu⟩ := List.getElem?_of_mem hth
    rcases Pool.commit_cases hu with ⟨-, rfl⟩ | ⟨-, hold⟩ | ⟨-, hstarted⟩
    · exact ⟨_, List.mem_of_getElem? ht, htodo.symm⟩
    · exact ⟨th, List.mem_of_getElem? hold, rfl⟩
    · simp [hnone] at hstarted
  rcases threadStep_cases hs with ⟨prog, e, ht, he, rfl⟩ | ⟨p, next, ht, rfl⟩ |
    ⟨p, call, call', syncer, next, ht, -, rfl⟩
  · exact inv_effect hi hok ht he hreplies
  · refine hi.frame hreplies rfl rfl rfl (fun th hth => .inl (hcalling _ ht rfl rfl th hth)) (by simp [goOn]) ?_
    exact fun _ _ _ hm => .inl (by simpa [State.apply, goOn] using hm)
  · refine hi.frame hreplies rfl rfl rfl (fun th hth => .inl (hcalling _ ht rfl rfl th hth)) (by simp [goOn]) ?_
    exact fun _ _ _ hm => .inl (by simpa [State.apply, goOn] using hm)

/-- The handler of a message is backed by what has happened before the message was sent. -/
theorem handler_backed (hi : Inv me s) {m : Msg} {prog : Prog Dir} (hm : m ∈ s.net) (h : Msg.handler m = some prog)
    (hlog : ∀ ev ∈ s.log, ev ∈ s'.log) : Backed me s' prog := by
  cases m <;> simp only [Msg.handler, Option.some.injEq, reduceCtorEq] at h <;> subst h
  case putNotification id pId d => exact hlog _ (hi.notified id pId d hm)
  all_goals trivial

theorem inv_deliver {i : Nat} (hi : Inv me s) (hs : deliver me s i c = some s') : Inv me s' := by
  have hreplies := MoveReply.inv_deliver hi.replies hs
  have herase : ∀ m, m ∈ s.net.eraseIdx i → m ∈ s.net := fun _ hm => List.mem_of_mem_eraseIdx hm
  have hsame : ∀ th ∈ s.threads, (∃ th' ∈ s.threads, todo th' = todo th) ∨ Backed me s' (todo th) :=
    fun th hth => .inl ⟨th, hth, rfl⟩
  obtain ⟨msg, hmsg, hcase⟩ := deliver_cases hs
  rcases hcase with ⟨prog, hp, rfl⟩ | ⟨_, _, _, -, rfl⟩ | ⟨_, d, -, rfl⟩ | ⟨_, toId, d, -, -, -, rfl⟩ |
    ⟨_, toId, d, -, -, -, rfl⟩ | ⟨_, _, -, rfl⟩ | ⟨_, _, -, rfl⟩ | ⟨_, _, -, rfl⟩
  · refine hi.frame hreplies rfl rfl (List.append_nil _).symm (fun th hth => ?_) (by simp)
      fun _ _ _ hm => .inl (herase _ hm)
    rcases List.mem_append.mp hth with hold | hnew
    · exact hsame th hold
    · obtain rfl := List.mem_singleton.mp hnew
      exact .inr (handler_backed hi (List.mem_of_getElem? hmsg) hp fun _ h => h)
  · exact hi.frame hreplies rfl rfl (List.append_nil _).symm hsame (by simp)
      fun _ _ _ hm => .inl (herase _ (by simpa using hm))
  · refine hi.frame hreplies rfl rfl rfl (fun th hth => ?_) (by simp [Needs])
      fun _ _ _ hm => .inl (herase _ hm)
    rcases List.mem_append.mp hth with hold | hnew
    · exact hsame th hold
    · obtain rfl := List.mem_singleton.mp hnew
      exact .inr (List.mem_append_right _ (List.mem_singleton.mpr rfl))
  · exact hi.frame hreplies rfl rfl (List.append_assoc _ _ _) hsame (by simp [Needs])
      fun _ _ _ hm => .inl (herase _ (by simpa using hm))
  · exact hi.frame hreplies rfl rfl rfl hsame (by simp [Needs]) fun _ _ _ hm => .inl (herase _ hm)
  · refine hi.frame hreplies rfl rfl (List.append_nil _).symm hsame (by simp) fun _ _ _ hm => .inl (herase _ ?_)
    cases hc : c.sent <;> simpa [hc] using hm
  · exact hi.frame hreplies rfl rfl (List.append_nil _).symm hsame (by simp) fun _ _ _ hm => .inl (herase _ hm)
  · exact hi.frame hreplies rfl rfl (List.append_nil _).symm hsame (by simp) fun _ _ _ hm => .inl (herase _ hm)

theorem inv_slave {i : Nat} (hi : Inv me s) (hs : slaveStep s i c = some s')
    (hreplies : MoveReply.Inv me s') : Inv me s' := by
  obtain ⟨-, hmoving, hspace, hthreads⟩ := slave_frame hs
  have hsame : ∀ th ∈ s'.threads, (∃ th' ∈ s.threads, todo th' = todo th) ∨ Backed me s' (todo th) := by
    rw [hthreads]
    exact fun th hth => .inl ⟨th, hth, rfl⟩
  obtain ⟨x, pc, -, -, hcase⟩ := slave_cases hs
  rcases hcase with ⟨-, -, hn, hl⟩ | ⟨_, -, -, -, hn, hl⟩ | ⟨-, -, -, hn, hl⟩ | ⟨-, -, -, hn, hl⟩ |
    ⟨-, -, hn, hl⟩ | ⟨-, -, -, hl, hn | hn⟩
  · exact hi.frame hreplies hmoving hspace (hl.trans (List.append_nil _).symm) hsame (by simp) (by simp [hn])
  · exact hi.frame hreplies hmoving hspace (hl.trans (List.append_nil _).symm) hsame (by simp) (by simp [hn])
  · refine hi.frame hreplies hmoving hspace hl hsame (by simp [Needs]) fun id pId d hm => ?_
    rw [hn] at hm
    rcases List.mem_append.mp hm with hold | hnew
    · exact .inl hold
    · obtain ⟨rfl, rfl, rfl⟩ : id = x.id ∧ pId = x.appId ∧ d = x.datum := by simpa using hnew
      exact .inr (List.mem_singleton.mpr rfl)
  · exact hi.frame hreplies hmoving hspace hl hsame (by simp [Needs]) fun _ _ _ hm => .inl (hn ▸ hm)
  · exact hi.frame hreplies hmoving hspace hl hsame (by simp [Needs]) fun _ _ _ hm => .inl (hn ▸ hm)
  · exact hi.frame hreplies hmoving hspace (hl.trans (List.append_nil _).symm) hsame (by simp) (by simp [hn])
  · exact hi.frame hreplies hmoving hspace (hl.trans (List.append_nil _).symm) hsame (by simp) (by simp [hn])

theorem inv_step {a : Action} (hi : Inv me s) (hok : Sourced me s a) (hs : step me s a = some s') : Inv me s' := by
  have hreplies := MoveReply.inv_step hi.replies hok.1 hs
  have hsame : ∀ th ∈ s.threads, (∃ th' ∈ s.threads, todo th' = todo th) ∨ Backed me s' (todo th) :=
    fun th hth => .inl ⟨th, hth, rfl⟩
  cases a with
  | thread t c => exact inv_thread hi hok hs
  | spurious t =>
    obtain ⟨_, _, _, -, -, rfl⟩ := spurious_cases hs
    exact hi.frame hreplies rfl rfl (List.append_nil _).symm hsame (by simp) fun _ _ _ hm => .inl hm
  | deliver i c => exact inv_deliver hi hs
  | lose i =>
    obtain ⟨_, _, _, -, rfl⟩ := lose_cases hs
    exact hi.frame hreplies rfl rfl (List.append_nil _).symm hsame (by simp)
      fun _ _ _ hm => .inl (List.mem_of_mem_eraseIdx hm)
  | slave i c => exact inv_slave hi hs hreplies
  | arrive r =>
    obtain rfl := Option.some.inj hs
    rcases arrive_cases me s r with ⟨_, hs'⟩ | ⟨appId, req, hs'⟩ | ⟨_, -, -, hs'⟩ <;> rw [hs'] at hreplies ⊢
    · exact hi.frame hreplies rfl rfl (List.append_nil _).symm (fun th hth => .inl ⟨th, hth, rfl⟩) (by simp)
        fun _ _ _ hm => .inl (by simpa using hm)
    · refine hi.frame hreplies rfl rfl (List.append_nil _).symm (fun th hth => ?_) (by simp) fun _ _ _ hm => .inl hm
      rcases List.mem_append.mp hth with hold | hnew
      · exact .inl ⟨th, hold, rfl⟩
      · obtain rfl := List.mem_singleton.mp hnew
        exact .inr trivial
    · exact hi.frame hreplies rfl rfl (List.append_nil _).symm (fun th hth => .inl ⟨th, hth, rfl⟩) (by simp)
        fun _ _ _ hm => .inl hm

/-- Where each query made for a move has a sound answer, each move goes from a holder to another DS. -/
theorem moves_from_holder (me : Int32) (maxNumKeyVer : Int) (wPrefetch : Bool) {s : State Dir}
    (hr : Reaches (step me) (Sourced me) (init me (MWASpace.empty maxNumKeyVer wPrefetch)) s) : Valid s :=
  (hr.invariant (Inv me) (inv_init me maxNumKeyVer wPrefetch) fun _ _ _ hi hok hs => inv_step hi hok hs).valid

end Step

/-- The event makes the DS a holder of its datum. -/
def makesHolder (id : Int32) : Event → Bool
  | .putAt id' _ => id' = id
  | .stored id' _ => id' = id
  | _ => false

/-- A prefetch of `v` to DS 1 is decided, and the next move of `v` goes from there while it is on its way. -/
theorem moves_from_decided : ¬ ∀ s : State Dir, Reaches (step 0) free (init 0 (MWASpace.empty 4 true)) s → Valid s := by
  intro h
  obtain ⟨s, hs, htest⟩ := Transition.run_reaches_of_any (step 0) (init 0 (MWASpace.empty 4 true) : State Dir)
    [.arrive (.connUp 1), .deliver 0 choice, .thread 0 choice,
      .arrive (.connUp 2), .deliver 0 choice, .thread 1 choice,
      .arrive (.put 2 7 (unitBox "u")), .slave 0 choice, .slave 0 choice, .slave 0 choice,
      .deliver 0 choice, .thread 2 choice, .thread 2 choice, .deliver 0 choice, .slave 0 choice,
      .deliver 0 choice, .thread 3 choice, .thread 3 choice,
      .arrive (.put 2 7 (unitBox "v")), .slave 1 choice, .slave 1 choice,
      .deliver 0 choice, .thread 4 choice, .thread 4 choice,
      .arrive (.get 1 5 true (unitBox "u")), .slave 2 choice, .slave 2 choice, .slave 2 choice,
      .deliver 0 choice, .thread 5 choice, .thread 5 choice, .deliver 0 choice, .slave 2 miss,
      .deliver 0 choice, .thread 6 choice, .thread 6 choice, .thread 6 choice, .thread 6 choice, .thread 6 choice,
      .thread 8 { choice with predicted := [7] }, .thread 8 choice, .thread 8 choice, .thread 8 choice,
      .thread 8 choice, .thread 8 choice, .thread 8 choice,
      .arrive (.get 0 9 true (unitBox "v")), .thread 10 choice, .thread 10 miss, .thread 10 choice,
      .thread 10 choice, .thread 10 choice]
    (fun s => decide (.issued 1 0 (unitBox "v") ∈ s.log ∧ ∀ ev ∈ s.log, makesHolder 1 ev = false)) (by decide)
  obtain ⟨hissued, hnone⟩ := of_decide_eq_true htest
  obtain ⟨pre, post, hsplit⟩ := List.append_of_mem hissued
  obtain ⟨-, d, -, hput | hstored⟩ := h s hs pre _ post hsplit
  · have hno := hnone _ (by rw [hsplit]; exact List.mem_append_left _ hput)
    simp [makesHolder] at hno
  · have hno := hnone _ (by rw [hsplit]; exact List.mem_append_left _ hstored)
    simp [makesHolder] at hno

/-- A get moves `u` to DS 1, and the access it makes prefetches `v` there, both from the DS they were put at. -/
theorem moves_from_producer : ∃ s : State Dir,
    (.issued 2 1 (unitBox "u") ∈ s.log ∧ .issued 2 1 (unitBox "v") ∈ s.log) ∧ Valid s := by
  obtain ⟨s, hs, htest⟩ := Transition.runWhere_reaches_of_any (step 0) (Sourced 0)
    (init 0 (MWASpace.empty 4 true) : State Dir)
    [.arrive (.connUp 1), .deliver 0 choice, .thread 0 choice,
      .arrive (.connUp 2), .deliver 0 choice, .thread 1 choice,
      .arrive (.put 2 7 (unitBox "u")), .slave 0 choice, .slave 0 choice, .slave 0 choice,
      .deliver 0 choice, .thread 2 choice, .thread 2 choice, .deliver 0 choice, .slave 0 choice,
      .deliver 0 choice, .thread 3 choice, .thread 3 choice,
      .arrive (.put 2 7 (unitBox "v")), .slave 1 choice, .slave 1 choice,
      .deliver 0 choice, .thread 4 choice, .thread 4 choice,
      .arrive (.get 1 5 true (unitBox "u")), .slave 2 choice, .slave 2 choice, .slave 2 choice,
      .deliver 0 choice, .thread 5 choice, .thread 5 choice, .deliver 0 choice, .slave 2 miss,
      .deliver 0 choice, .thread 6 choice, .thread 6 choice, .thread 6 choice, .thread 6 choice, .thread 6 choice,
      .thread 8 { choice with predicted := [7] }, .thread 8 choice, .thread 8 choice, .thread 8 choice,
      .thread 8 choice, .thread 8 choice, .thread 8 choice]
    (fun s => decide (.issued 2 1 (unitBox "u") ∈ s.log ∧ .issued 2 1 (unitBox "v") ∈ s.log)) (by decide)
  exact ⟨s, of_decide_eq_true htest, moves_from_holder 0 4 true hs⟩

end MoveSource
