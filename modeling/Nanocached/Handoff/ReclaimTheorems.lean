import Nanocached.Cache.Theorems.Handoffs
import Nanocached.Handoff.Ages
import Nanocached.Handoff.Reclaim
import Nanocached.Handoff.Serving
import Nanocached.Handoff.Traced

-- When a pass is skipped because nothing has changed, then it would have removed nothing.

namespace Nanocached

theorem flatten_toChunks {α : Type*} {n : Nat} {l : List α} : (l.toChunks n).flatten = l := by
  have hg (l : List α) (chunk : Array α) (chunks : Array (List α)) :
      (List.toChunks.go n l chunk chunks).flatten =
        chunks.toList.flatten ++ (chunk.toList ++ l) := by
    induction l generalizing chunk chunks
    case nil => simp [List.toChunks.go]
    case cons a l hi =>
      rw [List.toChunks.go]
      split
      · simp [hi]
      · simp [hi]
  cases l
  case nil => cases n <;> rfl
  case cons a l =>
    cases n
    case zero   => simp [List.toChunks]
    case succ n => simp [List.toChunks, hg]

def ReclaimPass.inTime (now : Instant) : ReclaimPass → Bool
  | .probed _ _ answered => now < answered + reclaimGrace
  | _                    => true

theorem ReclaimPass.lt_of_inTime {checks : List OwnerCheck} {mark : ReclaimMark}
    {now answered : Instant} (h : (probed checks mark answered).inTime now) :
    now < answered + reclaimGrace := by
  rw [inTime] at h
  exact of_decide_eq_true h

namespace Reclaimer

variable {sha256 : Bytes → Vector UInt8 32} {s s' : Reclaimer} {now : Instant}
         {checks : List OwnerCheck} {mark : ReclaimMark} {generation handoffWrites : Nat}
         {pending pending' : Key → Prop} {key : Key}

-- What the node owns under the memberships that it remembers.
def remembered (s : Reclaimer) : List OwnerCheck :=
  s.context.ringHistory.epochs.map fun epoch => .of s.context.name epoch.2

def Live (s : Reclaimer) (key : Key) : Prop :=
  (s.cache.contents.live s.last key).isSome

-- The call writes no key which the node owns under none of these memberships, except as a handoff
-- which is counted.
def Covers (s : Reclaimer) (now : Instant) (op : Cache.Op) (r : Cache.Response) : Prop :=
  ∀ key, (Cache.Event.mk now op r).Writes key → op.isCounted = false → s.remembered ≠ [] →
    s.remembered.any (·.owns key)

-- The cache executes only such calls, and the answer to a probe is looked at in time.
def Covered (sha256 : Bytes → Vector UInt8 32) (s : Reclaimer) (now : Instant) : Event → Prop
  | .member (.node .actor) =>
    ∀ request queue op r cache, s.member.node.queue = request :: queue →
      request.command = .call op → s.cache.exec sha256 now op = some (r, cache) →
      s.Covers now op r
  | .compare => s.cache.handoffWrites < 2 ^ 64 ∧ s.pass.all (·.inTime now)
  | _        => True

-- What can happen to a node at once.
structure Advances (sha256 : Bytes → Vector UInt8 32) (s : Reclaimer) (s' : Reclaimer) : Prop where
  last    : s.last ≤ s'.last
  context : s.context.Ages s'.context
  cache   : s'.cache = s.cache ∨ ∃ op r, s.cache.exec sha256 s'.last op = some (r, s'.cache) ∧
              s.Covers s'.last op r

namespace Advances

theorem wf (h : s.Advances sha256 s') (hc : s.cache.WF sha256) : s'.cache.WF sha256 := by
  rcases h.cache with he | ⟨op, r, he, _⟩
  · exact he ▸ hc
  · exact Cache.wf_of_exec hc he

-- A handoff that is counted is the latest one.
theorem handoffs (h : s.Advances sha256 s') (hc : s.cache.WF sha256) :
    s'.cache.handoffs = s.cache.handoffs ∨
    s'.cache.handoffs = (some s'.last, s.cache.handoffWrites + 1) := by
  rcases h.cache with he | ⟨op, r, he, _⟩
  case inl => exact .inl (he ▸ rfl)
  case inr =>
    have hh := Cache.handoffs_of_exec hc he
    cases hc : op.isCounted
    case false => exact .inl (by rw [hh, hc]; rfl)
    case true  => exact .inr (by rw [hh, hc]; rfl)

theorem handoffWrites_le (h : s.Advances sha256 s') (hc : s.cache.WF sha256) :
    s.cache.handoffWrites ≤ s'.cache.handoffWrites := by
  rcases h.handoffs hc with he | he
  · exact (congrArg Prod.snd he).ge
  · exact (congrArg Prod.snd he).ge.trans' (Nat.le_succ _)

theorem remembered (h : s.Advances sha256 s')
    (hg : s'.context.ringHistory.generation = s.context.ringHistory.generation) :
    s'.remembered <:+ s.remembered ∧ (s.remembered ≠ [] → s'.remembered ≠ []) := by
  rcases h.context.history with ⟨_, he, hn⟩ | hlt
  case inl =>
    unfold Reclaimer.remembered
    rw [h.context.name]
    exact ⟨he.map _, fun h => by simpa using hn (by simpa using h)⟩
  case inr => exact absurd hg hlt.ne'

theorem generation_le (h : s.Advances sha256 s') :
    s.context.ringHistory.generation ≤ s'.context.ringHistory.generation :=
  h.context.history.generation_le

theorem live (h : s.Advances sha256 s') (hc : s.cache.WF sha256)
    (hw : s'.cache.handoffWrites = s.cache.handoffWrites) (hn : s.remembered ≠ [])
    (hl : s'.Live key) : s.Live key ∨ s.remembered.any (·.owns key) := by
  rcases h.cache with he | ⟨op, r, he, hcov⟩
  case inl =>
    rw [Live, he] at hl
    exact .inl (Contents.live_mono h.last hl)
  case inr =>
    by_cases hk : (Cache.Event.mk s'.last op r).Writes key
    case neg => exact .inl (Contents.live_mono h.last (Cache.live_of_exec hc he hk hl))
    case pos =>
      refine .inr (hcov key hk ?_ hn)
      have hh := congrArg Prod.snd (Cache.handoffs_of_exec hc he)
      cases ho : op.isCounted
      case false => rfl
      case true  =>
        rw [ho] at hh
        exact absurd (hw.symm.trans hh) (Nat.lt_succ_self _).ne

end Advances

-- As long as neither count has moved, the node remembers no other membership than those of the
-- checks, which are for every key that is not pending.
structure Stands (s : Reclaimer) (checks : List OwnerCheck) (generation handoffWrites : Nat)
    (pending : Key → Prop) : Prop where
  generation_le    : generation ≤ s.context.ringHistory.generation
  handoffWrites_le : handoffWrites ≤ s.cache.handoffWrites
  remembered       : s.context.ringHistory.generation = generation →
                       s.remembered <:+ checks ∧ s.remembered ≠ []
  owned            : s.context.ringHistory.generation = generation →
                       s.cache.handoffWrites = handoffWrites → ∀ key, s.Live key →
                         pending key ∨ checks.any (·.owns key)

namespace Stands

theorem advance (h : s.Stands checks generation handoffWrites pending) (hc : s.cache.WF sha256)
    (ha : s.Advances sha256 s') : s'.Stands checks generation handoffWrites pending := by
  have hg (hg : s'.context.ringHistory.generation = generation) :
      s.context.ringHistory.generation = generation :=
    Nat.le_antisymm (ha.generation_le.trans hg.le) h.generation_le
  constructor
  case generation_le    => exact h.generation_le.trans ha.generation_le
  case handoffWrites_le => exact h.handoffWrites_le.trans (ha.handoffWrites_le hc)
  case remembered =>
    intro he
    obtain ⟨hs, hn⟩ := ha.remembered (he.trans (hg he).symm)
    exact ⟨hs.trans (h.remembered (hg he)).1, hn (h.remembered (hg he)).2⟩
  case owned =>
    intro he hw key hl
    have hw' : s.cache.handoffWrites = handoffWrites :=
      Nat.le_antisymm ((ha.handoffWrites_le hc).trans hw.le) h.handoffWrites_le
    obtain ⟨hs, hn⟩ := h.remembered (hg he)
    rcases ha.live hc (hw.trans hw'.symm) hn hl with hl | ho
    · exact h.owned (hg he) hw' key hl
    · exact .inr (List.any_eq_true.mpr (by
        obtain ⟨check, hm, ho⟩ := List.any_eq_true.mp ho
        exact ⟨check, hs.mem hm, ho⟩))

theorem narrow (h : s.Stands checks generation handoffWrites pending)
    (hp : ∀ key, s.Live key → pending key → pending' key ∨ checks.any (·.owns key)) :
    s.Stands checks generation handoffWrites pending' where
  generation_le      := h.generation_le
  handoffWrites_le   := h.handoffWrites_le
  remembered         := h.remembered
  owned hg hw key hl := (h.owned hg hw key hl).elim (hp key hl) .inr

end Stands

-- The checks are part of what the settled pass has judged by.
def Narrows (s : Reclaimer) (checks : List OwnerCheck) (generation : Nat) : Prop :=
  ∀ mark, s.settled = some mark → mark.generation = generation → checks <:+ s.judged

-- Any handoff that the mark does not count came after the answer.
def Answered (s : Reclaimer) (handoffWrites : Nat) (answered : Instant) : Prop :=
  answered ≤ s.last ∧ (handoffWrites < s.cache.handoffWrites →
    ∃ latest, s.cache.lastHandoffAt = some latest ∧ answered ≤ latest)

theorem Answered.advance {answered : Instant} (h : s.Answered handoffWrites answered)
    (hc : s.cache.WF sha256) (ha : s.Advances sha256 s') : s'.Answered handoffWrites answered := by
  refine ⟨h.1.trans ha.last, fun hlt => ?_⟩
  rcases ha.handoffs hc with he | he
  case inl =>
    obtain ⟨hl, hw⟩ := Prod.mk.inj he
    rw [hl]
    exact h.2 (hw ▸ hlt)
  case inr => exact ⟨s'.last, congrArg Prod.fst he, h.1.trans ha.last⟩

end Reclaimer

namespace ReclaimPass

variable {sha256 : Bytes → Vector UInt8 32} {s s' : Reclaimer}

def Sound (s : Reclaimer) : ReclaimPass → Prop
  | .probing checks generation =>
    s.Stands checks generation 0 (fun _ => True) ∧ s.Narrows checks generation
  | .probed checks mark answered =>
    mark.epochs = checks.length ∧
      s.Stands checks mark.generation mark.handoffWrites (fun _ => True) ∧
      s.Narrows checks mark.generation ∧ s.Answered mark.handoffWrites answered
  | .listing checks mark =>
    mark.epochs = checks.length ∧
      s.Stands checks mark.generation mark.handoffWrites (fun _ => True)
  | .next checks mark chunks =>
    mark.epochs = checks.length ∧
      s.Stands checks mark.generation mark.handoffWrites (· ∈ chunks.flatten)
  | .reclaiming checks mark chunk chunks =>
    mark.epochs = checks.length ∧
      s.Stands checks mark.generation mark.handoffWrites fun key =>
        key ∈ chunk ∨ key ∈ chunks.flatten

theorem Sound.advance {pass : ReclaimPass} (h : pass.Sound s) (hc : s.cache.WF sha256)
    (ha : s.Advances sha256 s') (hs : s'.settled = s.settled) (hj : s'.judged = s.judged) :
    pass.Sound s' := by
  have hn {checks generation} (hn : s.Narrows checks generation) :
      s'.Narrows checks generation := by
    unfold Reclaimer.Narrows
    rw [hs, hj]
    exact hn
  cases pass with
  | probing checks generation              => exact ⟨h.1.advance hc ha, hn h.2⟩
  | probed checks mark answered            =>
    exact ⟨h.1, h.2.1.advance hc ha, hn h.2.2.1, h.2.2.2.advance hc ha⟩
  | listing checks mark                    => exact ⟨h.1, h.2.advance hc ha⟩
  | next checks mark chunks                => exact ⟨h.1, h.2.advance hc ha⟩
  | reclaiming checks mark chunk chunks    => exact ⟨h.1, h.2.advance hc ha⟩

end ReclaimPass

namespace Reclaimer

variable {sha256 : Bytes → Vector UInt8 32} {s s' : Reclaimer} {now : Instant} {event : Event}

structure Inv (sha256 : Bytes → Vector UInt8 32) (s : Reclaimer) : Prop where
  wf      : s.cache.WF sha256
  settled : ∀ mark, s.settled = some mark → mark.epochs = s.judged.length ∧
              s.Stands s.judged mark.generation mark.handoffWrites (fun _ => False)
  pass    : ∀ pass, s.pass = some pass → pass.Sound s

namespace Inv

-- A step of the pass that keeps what is settled.
theorem advance (h : s.Inv sha256) (ha : s.Advances sha256 s') (hs : s'.settled = s.settled)
    (hj : s'.judged = s.judged) (hp : ∀ pass, s'.pass = some pass → pass.Sound s') :
    s'.Inv sha256 where
  wf   := ha.wf h.wf
  pass := hp
  settled mark he := by
    rw [hs] at he
    rw [hj]
    obtain ⟨hl, hst⟩ := h.settled mark he
    exact ⟨hl, hst.advance h.wf ha⟩

-- A step that is none of the pass.
theorem frame (h : s.Inv sha256) (ha : s.Advances sha256 s') (hs : s'.settled = s.settled)
    (hj : s'.judged = s.judged) (hp : s'.pass = s.pass) : s'.Inv sha256 :=
  h.advance ha hs hj fun pass he => (h.pass pass (hp ▸ he)).advance h.wf ha hs hj

end Inv
end Reclaimer

namespace NodeContext

variable {node : NodeContext} {now : Instant} {checks : List OwnerCheck} {generation : Nat}

theorem ages_reclaimChecks : node.Ages (node.reclaimChecks now).2 := by
  unfold reclaimChecks
  dsimp only
  split
  · exact .refl
  · exact ⟨rfl, RingHistory.follows_checksWithinAt⟩

theorem reclaimChecks_eq_some (h : (node.reclaimChecks now).1 = some (checks, generation)) :
    (node.reclaimChecks now).2.ringHistory.generation = generation ∧ checks ≠ [] ∧
      (node.reclaimChecks now).2.ringHistory.epochs.map (fun epoch => .of node.name epoch.2) =
        checks := by
  unfold reclaimChecks RingHistory.checksWithinAt at *
  dsimp only at *
  split at h
  case isTrue => contradiction
  case isFalse hs =>
    rw [if_neg hs]
    split at h
    case h_1 => contradiction
    case h_2 cutoff hc =>
      split at h
      case h_1 => contradiction
      case h_2 start hr =>
        cases h
        obtain ⟨⟨epoch, he, _⟩, _⟩ := EpochLog.rposition_eq_some.mp hr
        obtain ⟨hlt, _⟩ := List.getElem?_eq_some_iff.mp he
        refine ⟨rfl, ?_, rfl⟩
        simpa using hlt

end NodeContext

namespace Cache

variable {s s' : Cache} {keys : List Key} {owned : Key → Bool} {handoffQuietFor : Duration}
         {now : Instant} {report : ReclaimReport}

theorem reclaimUnownedAt_cases
    (h : s.reclaimUnownedAt keys owned handoffQuietFor now = some (report, s')) :
    report.handoffWrites = s.handoffWrites ∧ (report.paused = true ∧ s' = s ∨
      report.paused = false ∧ reclaimGo owned keys 0 s = some (report.removed, s')) := by
  unfold reclaimUnownedAt at h
  dsimp only at h
  split at h
  case isTrue =>
    cases h
    exact ⟨rfl, .inl ⟨rfl, rfl⟩⟩
  case isFalse =>
    obtain ⟨⟨n, s₁⟩, hr, ⟨⟩⟩ := Option.bind_eq_some_iff.mp h
    exact ⟨rfl, .inr ⟨rfl, hr⟩⟩

end Cache

namespace Reclaimer

variable {sha256 : Bytes → Vector UInt8 32} {s s' : Reclaimer} {now : Instant} {event : Event}

theorem exec_eq_some (he : s.exec now sha256 event = some s') :
    ∃ s₁, s.step now sha256 event = some s₁ ∧ s' = { s₁ with last := now } := by
  obtain ⟨s₁, hs, ⟨⟩⟩ := Option.bind_eq_some_iff.mp he
  exact ⟨s₁, hs, rfl⟩

section Advances

theorem advances_of_member {event : Member.Event} {member : Member} (hl : s.last ≤ now)
    (hc : s.Covered sha256 now (.member event)) (he : s.member.exec sha256 now event = some member) :
    s.Advances sha256 { s with member, last := now } where
  last    := hl
  context := Member.ages_of_exec he
  cache   := by
    by_cases ha : event = .node .actor
    case neg => exact .inl (Member.cache_of_exec ha he)
    case pos =>
      subst ha
      obtain ⟨node, hx, ⟨⟩⟩ := Option.bind_eq_some_iff.mp he
      obtain ⟨_, request, queue, reply, hq, hr⟩ := Node.actor_of_exec hx
      rcases Command.exec_cases hr with hr | ⟨op, r, hr, hw⟩
      · exact .inl hr
      · refine .inr ⟨op, r, hr, ?_⟩
        rcases hw with hw | hw
        · exact hc request queue op r _ hq hw hr
        · exact fun key hk => absurd hk (hw key)

theorem advances_of_context {context : NodeContext} (hl : s.last ≤ now)
    (h : s.context.Ages context) (pass : Option ReclaimPass) :
    s.Advances sha256 { s.withContext context with pass, last := now } where
  last    := hl
  context := h
  cache   := .inl rfl

theorem advances_of_reclaim {cache : Cache} {keys : List Key} {owned : Key → Bool}
    {report : ReclaimReport} (hl : s.last ≤ now)
    (h : s.cache.reclaimUnownedAt keys owned reclaimGrace now = some (report, cache))
    (pass : Option ReclaimPass) :
    s.Advances sha256 { s.withCache cache with pass, last := now } where
  last    := hl
  context := .refl
  cache   := by
    refine .inr ⟨.reclaimUnowned keys owned reclaimGrace, .reclaimed report, ?_, fun _ => False.elim⟩
    show (s.cache.reclaimUnownedAt keys owned reclaimGrace now).bind _ = _
    rw [h]
    rfl

end Advances

namespace Inv

theorem begin (h : s.Inv sha256) (hl : s.last ≤ now)
    (he : s.exec now sha256 .begin = some s') : s'.Inv sha256 := by
  obtain ⟨s₁, hs, rfl⟩ := exec_eq_some he
  simp only [step] at hs
  split at hs
  case h_1 => contradiction
  case h_2 =>
    cases hs
    have ha := @advances_of_context sha256 s now (s.context.reclaimChecks now).2 hl
      NodeContext.ages_reclaimChecks
      ((s.context.reclaimChecks now).1.map fun answer => .probing answer.1 answer.2)
    refine h.advance ha rfl rfl fun pass hp => ?_
    obtain ⟨⟨checks, generation⟩, hr, rfl⟩ := Option.map_eq_some_iff.mp hp
    obtain ⟨hg, hn, hm⟩ := NodeContext.reclaimChecks_eq_some hr
    have hm' : remembered { s.withContext (s.context.reclaimChecks now).2 with
        pass := (s.context.reclaimChecks now).1.map fun answer => .probing answer.1 answer.2
        last := now } = checks := by
      rw [← hm]
      unfold remembered
      rw [ha.context.name]
      rfl
    refine ⟨⟨hg.ge, Nat.zero_le _, fun _ => ⟨hm'.symm ▸ List.suffix_rfl, hm'.symm ▸ hn⟩,
      fun _ _ _ _ => .inl trivial⟩, fun mark hs hg' => ?_⟩
    obtain ⟨_, hst⟩ := h.settled mark hs
    rw [← hm']
    exact ((hst.advance h.wf ha).remembered (hg.trans hg'.symm)).1

theorem probe (h : s.Inv sha256) (hl : s.last ≤ now)
    (he : s.exec now sha256 .probe = some s') : s'.Inv sha256 := by
  obtain ⟨s₁, hs, rfl⟩ := exec_eq_some he
  simp only [step] at hs
  split at hs
  case h_2 => contradiction
  case h_1 checks generation hp =>
    obtain ⟨⟨report, cache⟩, hr, ⟨⟩⟩ := Option.bind_eq_some_iff.mp hs
    have ha := @advances_of_reclaim sha256 s now cache _ _ report hl hr
    obtain ⟨hst, hn⟩ := h.pass _ hp
    refine h.advance (ha _) rfl rfl fun pass hp' => ?_
    obtain ⟨hw, ⟨hpaused, _⟩ | ⟨hpaused, hg⟩⟩ := Cache.reclaimUnownedAt_cases hr
    case inl =>
      rw [if_pos hpaused] at hp'
      contradiction
    case inr =>
      rw [if_neg (by simp [hpaused])] at hp'
      cases hp'
      have hc : s.cache = cache := (Prod.mk.inj (Option.some.inj hg)).2
      subst hc
      have hst := hst.advance h.wf (ha none)
      refine ⟨rfl, ⟨hst.generation_le, hw.le, hst.remembered, fun _ _ _ _ => .inl trivial⟩, hn,
        le_rfl, fun hlt => absurd (hw ▸ hlt) (lt_irrefl _)⟩

theorem list {order : IterOrder Key} (h : s.Inv sha256) (hl : s.last ≤ now)
    (he : s.exec now sha256 (.list order) = some s') : s'.Inv sha256 := by
  obtain ⟨s₁, hs, rfl⟩ := exec_eq_some he
  simp only [step] at hs
  split at hs
  case h_2 => contradiction
  case h_1 checks mark hp =>
    cases hs
    have ha := @advances_of_context sha256 s now s.context hl .refl
      (some (.next checks mark (s.chunksOf now order)))
    obtain ⟨hm, hst⟩ := h.pass _ hp
    refine h.advance ha rfl rfl fun pass hp' => ?_
    cases hp'
    refine ⟨hm, (hst.advance h.wf ha).narrow fun key hk _ => .inl ?_⟩
    rw [chunksOf, flatten_toChunks]
    exact h.wf.mem_keysAt.mpr hk

theorem next (h : s.Inv sha256) (hl : s.last ≤ now)
    (he : s.exec now sha256 .next = some s') : s'.Inv sha256 := by
  obtain ⟨s₁, hs, rfl⟩ := exec_eq_some he
  simp only [step] at hs
  split at hs
  case h_1 checks mark hp =>
    cases hs
    have ha := @advances_of_context sha256 s now s.context hl .refl none
    obtain ⟨hm, hst⟩ := h.pass _ hp
    have hst : Stands _ checks mark.generation mark.handoffWrites fun _ => False :=
      (hst.advance h.wf ha).narrow (by simp)
    refine ⟨ha.wf h.wf, fun mark hs => ?_, fun pass hp => by contradiction⟩
    cases hs
    exact ⟨hm, hst.generation_le, hst.handoffWrites_le, hst.remembered, hst.owned⟩
  case h_2 checks mark chunk chunks hp =>
    cases hs
    have ha := @advances_of_context sha256 s now (s.context.reclaimChecks now).2 hl
      NodeContext.ages_reclaimChecks
    obtain ⟨hm, hst⟩ := h.pass _ hp
    refine h.advance (ha _) rfl rfl fun pass hp' => ?_
    dsimp only at hp'
    split at hp'
    case isFalse => contradiction
    case isTrue hg =>
      cases hp'
      refine ⟨hm, (hst.advance h.wf (ha _)).narrow fun key _ hk => .inl ?_⟩
      simpa using hk
  case h_3 => contradiction

theorem reclaim (h : s.Inv sha256) (hl : s.last ≤ now)
    (he : s.exec now sha256 .reclaim = some s') : s'.Inv sha256 := by
  obtain ⟨s₁, hs, rfl⟩ := exec_eq_some he
  simp only [step] at hs
  split at hs
  case h_2 => contradiction
  case h_1 checks mark chunk chunks hp =>
    obtain ⟨⟨report, cache⟩, hr, ⟨⟩⟩ := Option.bind_eq_some_iff.mp hs
    have ha := @advances_of_reclaim sha256 s now cache _ _ report hl hr
    obtain ⟨hm, hst⟩ := h.pass _ hp
    refine h.advance (ha _) rfl rfl fun pass hp' => ?_
    obtain ⟨_, ⟨hpaused, _⟩ | ⟨hpaused, hg⟩⟩ := Cache.reclaimUnownedAt_cases hr
    case inl =>
      rw [if_pos hpaused] at hp'
      contradiction
    case inr =>
      rw [if_neg (by simp [hpaused])] at hp'
      cases hp'
      refine ⟨hm, (hst.advance h.wf (ha _)).narrow fun key hk hc => ?_⟩
      -- What is left of the chunk is owned.
      rcases hc with hc | hc
      · exact .inr (Cache.owned_of_reclaimGo h.wf hg hc hk)
      · exact .inl hc

theorem exec (h : s.Inv sha256) (hl : s.last ≤ now) (hc : s.Covered sha256 now event)
    (he : s.exec now sha256 event = some s') : s'.Inv sha256 := by
  cases event with
  | begin      => exact h.begin hl he
  | probe      => exact h.probe hl he
  | list order => exact h.list hl he
  | next       => exact h.next hl he
  | reclaim    => exact h.reclaim hl he
  | member event =>
    obtain ⟨s₁, hs, rfl⟩ := exec_eq_some he
    simp only [step] at hs
    split at hs
    case isFalse => contradiction
    case isTrue  =>
      obtain ⟨member, hm, ⟨⟩⟩ := Option.bind_eq_some_iff.mp hs
      exact h.frame (advances_of_member hl hc hm) rfl rfl rfl
  | setLeaving leaving =>
    obtain ⟨s₁, hs, rfl⟩ := exec_eq_some he
    cases hs
    have ha : s.context.Ages { s.context with leaving } := .of_eq rfl rfl
    exact h.frame (@advances_of_context sha256 s now _ hl ha s.pass) rfl rfl rfl
  | stop =>
    obtain ⟨s₁, hs, rfl⟩ := exec_eq_some he
    cases hs
    refine h.advance (@advances_of_context sha256 s now s.context hl .refl none) rfl rfl ?_
    intro pass hp
    contradiction
  | compare =>
    obtain ⟨s₁, hs, rfl⟩ := exec_eq_some he
    have ha := @advances_of_context sha256 s now s.context hl .refl
    simp only [step] at hs
    split at hs
    case h_2 => contradiction
    case h_1 checks mark answered hp =>
      split at hs
      case isTrue =>
        cases hs
        refine h.advance (ha none) rfl rfl ?_
        intro pass hp
        contradiction
      case isFalse =>
        cases hs
        obtain ⟨hm, hst, _⟩ := h.pass _ hp
        refine h.advance (ha (some (.listing checks mark))) rfl rfl ?_
        rintro pass ⟨⟩
        exact ⟨hm, hst.advance h.wf (ha _)⟩

end Inv

theorem Reachable.inv (h : s.Reachable sha256 (Covered sha256)) : s.Inv sha256 := by
  induction h
  case init member maxMemoryBytes budgets now hc ha =>
    refine ⟨?_, fun mark hs => by contradiction, fun pass hp => by contradiction⟩
    show member.node.cache.WF sha256
    rw [hc]
    exact .withBudgets _ _
  case step hl hc he hi => exact hi.exec hl hc he

section FullPass

variable {checks : List OwnerCheck} {generation : Nat} {chunks : List (List Key)}
         {context : NodeContext} {cache : Cache}

theorem reclaimAll_of_owned (ho : ∀ key ∈ chunks.flatten, checks.any (·.owns key)) :
    reclaimAll now checks generation chunks context cache = some 0 := by
  induction chunks generalizing context
  case nil => rfl
  case cons chunk chunks hi =>
    have hc : ∀ key ∈ chunk, checks.any (·.owns key) := fun key hk => ho key (by simp [hk])
    have hi := fun context => @hi context fun key hk => ho key (by simp_all)
    rw [reclaimAll]
    dsimp only
    split
    case isFalse => rfl
    case isTrue  =>
      rw [Cache.reclaimUnownedAt]
      dsimp only
      split
      · rfl
      · simp [Cache.reclaimGo_of_owned hc, hi]

-- Neither does a pass remove anything which a change of the memberships or a handoff has stopped.
theorem reclaimAll_of_stopped
    (h : (context.reclaimChecks now).1.map (·.2) ≠ some generation ∨
      cache.lastHandoffAt.any fun latest => durationSince now latest < reclaimGrace) :
    reclaimAll now checks generation chunks context cache = some 0 := by
  cases chunks
  case nil => rfl
  case cons chunk chunks =>
    rw [reclaimAll]
    dsimp only
    split
    case isFalse   => rfl
    case isTrue hg =>
      rw [Cache.reclaimUnownedAt]
      dsimp only
      rw [if_pos (h.resolve_left (not_not.mpr hg))]
      rfl

end FullPass

theorem covered_compare (hw : s.cache.handoffWrites < 2 ^ 64) (hp : s.pass.all (·.inTime now)) :
    s.Covered sha256 now .compare :=
  ⟨hw, hp⟩

theorem Reachable.skips_nothing {order : IterOrder Key} {checks : List OwnerCheck}
    {mark : ReclaimMark} {answered : Instant} (h : s.Reachable sha256 (Covered sha256))
    (hp : s.pass = some (.probed checks mark answered)) (hs : s.settled.any (·.same mark))
    (hl : s.last ≤ now) (hc : s.Covered sha256 now .compare) :
    s.fullPass now order checks mark = some 0 := by
  obtain ⟨settled, hse, hsame⟩ := (Option.any_eq_true _ _).mp hs
  obtain ⟨hj, hst⟩ := h.inv.settled settled hse
  obtain ⟨hm, hst', hn, _, hlate⟩ := h.inv.pass _ hp
  obtain ⟨hlt, hgrace⟩ := hc
  simp only [ReclaimMark.same, Bool.and_eq_true, decide_eq_true_eq] at hsame
  obtain ⟨⟨hg, hep⟩, hw⟩ := hsame
  rw [Nat.mod_eq_of_lt (hst.handoffWrites_le.trans_lt hlt),
    Nat.mod_eq_of_lt (hst'.handoffWrites_le.trans_lt hlt)] at hw
  have hjudged : checks = s.judged :=
    (hn settled hse hg).eq_of_length (hm.symm.trans (hep.symm.trans hj))
  unfold fullPass
  by_cases hgen : (s.context.reclaimChecks now).1.map (·.2) = some mark.generation
  case neg => exact reclaimAll_of_stopped (.inl hgen)
  case pos =>
    by_cases hwr : mark.handoffWrites < s.cache.handoffWrites
    case pos =>
      obtain ⟨latest, hla, hle⟩ := hlate hwr
      refine reclaimAll_of_stopped (.inr ((Option.any_eq_true _ _).mpr ⟨latest, hla, ?_⟩))
      rw [hp, Option.all_some] at hgrace
      have hgrace := ReclaimPass.lt_of_inTime hgrace
      refine decide_eq_true ?_
      unfold durationSince
      dsimp only [Instant, Duration] at *
      omega
    case neg =>
      refine reclaimAll_of_owned fun key hk => ?_
      rw [chunksOf, flatten_toChunks, h.inv.wf.mem_keysAt] at hk
      obtain ⟨answer, ha, hag⟩ := Option.map_eq_some_iff.mp hgen
      obtain ⟨checks', generation⟩ := answer
      have hga := (NodeContext.reclaimChecks_eq_some ha).1
      have hle := (@NodeContext.ages_reclaimChecks s.context now).history.generation_le
      have hgs : s.context.ringHistory.generation = settled.generation := by
        have hle' := hst'.generation_le
        dsimp only at hag
        omega
      have hws : s.cache.handoffWrites = settled.handoffWrites :=
        (Nat.le_antisymm (not_lt.mp hwr) hst'.handoffWrites_le).trans hw.symm
      rw [hjudged]
      exact (hst.owned hgs hws key (Contents.live_mono hl hk)).resolve_left id

def execAll (sha256 : Bytes → Vector UInt8 32) (s : Reclaimer) :
    List (Instant × Event) → Option Reclaimer
  | []                     => some s
  | (now, event) :: events => do execAll sha256 (← s.exec now sha256 event) events

theorem Reachable.execAll {allowed : Reclaimer → Instant → Event → Prop}
    {events : List (Instant × Event)} (h : s.Reachable sha256 allowed)
    (ht : (s.last :: events.map (·.1)).IsChain (· ≤ ·))
    (ha : ∀ event ∈ events, ∀ s, allowed s event.1 event.2)
    (he : s.execAll sha256 events = some s') : s'.Reachable sha256 allowed := by
  induction events generalizing s
  case nil =>
    cases he
    exact h
  case cons event events hi =>
    obtain ⟨s₁, hs, he⟩ := Option.bind_eq_some_iff.mp he
    obtain ⟨hl, ht⟩ := List.isChain_cons_cons.mp ht
    have hl₁ : s₁.last = event.1 := by
      obtain ⟨_, _, rfl⟩ := exec_eq_some hs
      rfl
    exact hi (h.step hl (ha event List.mem_cons_self s) hs) (hl₁ ▸ ht)
      (fun event hm => ha event (List.mem_cons_of_mem _ hm)) he

def skips (s : Reclaimer) : Bool :=
  match s.pass with
  | some (.probed _ mark _) => s.settled.any (·.same mark)
  | _                       => false

theorem probed_of_skips (h : s.skips) : ∃ checks mark answered,
    s.pass = some (.probed checks mark answered) ∧ s.settled.any (·.same mark) := by
  unfold skips at h
  split at h
  case h_1 checks mark answered hp => exact ⟨checks, mark, answered, hp, h⟩
  case h_2                         => contradiction

def fresh (name : Bytes) : Reclaimer where
  member  := .fresh name
  settled := none
  pass    := none
  judged  := []
  last    := 0

-- The node learns a roster, and a pass begins.
def learning : List (Instant × Event) :=
  [(0, .member .promote),
   (0, .member (.heartbeat [[97], [98], [99]] 1)),
   (reclaimGrace, .begin),
   (reclaimGrace, .probe)]

-- The pass finds nothing to remove. Then a client writes the key.
def writing (key : Key) : List (Instant × Event) :=
  [(reclaimGrace, .list .asListed),
   (reclaimGrace, .next),
   (reclaimGrace, .member (.refreshPublishedRoster [[97], [98]] 1)),
   (reclaimGrace, .member (.node (.request (.set key [0]))))]

-- The next pass.
def probing : List (Instant × Event) :=
  [(reclaimGrace, .member (.heartbeat [[97], [98], [99]] 1)),
   (reclaimGrace, .begin),
   (reclaimGrace, .probe)]

-- A roster which the node is never to adopt made it take the key `z`, which the pass that is skipped
-- would remove.
theorem skips_unowned :
    let sha256 : Bytes → Vector UInt8 32 := fun _ => .replicate 32 0
    ∃ (s : Reclaimer) (checks : _) (mark : _) (answered : _), s.Reachable sha256 (fun _ _ _ => True) ∧
      s.pass = some (.probed checks mark answered) ∧ s.settled.any (·.same mark) = true ∧
      s.last ≤ reclaimGrace ∧ s.Covered sha256 reclaimGrace .compare ∧
      s.fullPass reclaimGrace .asListed checks mark = some 1 := by
  intro sha256
  let events := learning ++ (reclaimGrace, .compare) :: writing ⟨[], [122]⟩ ++
    (reclaimGrace, .member (.node .actor)) :: probing
  let s := ((fresh [97]).execAll sha256 events).get (by decide)
  have hs : (fresh [97]).execAll sha256 events = some s := rfl
  have h₀ : (fresh [97]).Reachable sha256 fun _ _ _ => True := .init rfl rfl
  have h := h₀.execAll (by decide) (fun _ _ _ => trivial) hs
  exact ⟨s, _, _, _, h, rfl, by decide, by decide, covered_compare (by decide) (by decide), by decide⟩

-- The key `b` is its own.
theorem skips_nothing_of_owned :
    let sha256 : Bytes → Vector UInt8 32 := fun _ => .replicate 32 0
    ∃ (s : Reclaimer) (checks : _) (mark : _) (answered : _), s.Reachable sha256 (Covered sha256) ∧
      s.pass = some (.probed checks mark answered) ∧ s.settled.any (·.same mark) = true ∧
      s.last ≤ reclaimGrace ∧ s.Covered sha256 reclaimGrace .compare ∧
      (s.cache.keysAt .asListed reclaimGrace).length = 1 ∧
      s.fullPass reclaimGrace .asListed checks mark = some 0 := by
  intro sha256
  let s₁ := ((fresh [97]).execAll sha256 learning).get (by decide)
  let s₂ := (s₁.exec reclaimGrace sha256 .compare).get (by decide)
  let s₃ := (s₂.execAll sha256 (writing ⟨[], [98]⟩)).get (by decide)
  let s₄ := (s₃.exec reclaimGrace sha256 (.member (.node .actor))).get (by decide)
  let s₅ := (s₄.execAll sha256 probing).get (by decide)
  have e₁ : (fresh [97]).execAll sha256 learning = some s₁ := (Option.some_get _).symm
  have e₂ : s₁.exec reclaimGrace sha256 .compare = some s₂ := (Option.some_get _).symm
  have e₃ : s₂.execAll sha256 (writing ⟨[], [98]⟩) = some s₃ := (Option.some_get _).symm
  have e₄ : s₃.exec reclaimGrace sha256 (.member (.node .actor)) = some s₄ := (Option.some_get _).symm
  have e₅ : s₄.execAll sha256 probing = some s₅ := (Option.some_get _).symm
  have h₀ : (fresh [97]).Reachable sha256 (Covered sha256) := .init rfl rfl
  have h₁ := h₀.execAll (by decide) (by simp [learning, Covered]) e₁
  have h₂ := h₁.step (by decide) (covered_compare (by decide) (by decide)) e₂
  have h₃ := h₂.execAll (by decide) (by simp [writing, Covered]) e₃
  have hq : s₃.member.node.queue = [⟨.call (.set ⟨[], [98]⟩ [0]), none⟩] := rfl
  have hr : s₃.remembered.any (·.owns ⟨[], [98]⟩) := by decide
  have hc₃ : s₃.Covered sha256 reclaimGrace (.member (.node .actor)) := by
    intro request queue op r cache hq' ho _ key hw _ _
    rw [hq] at hq'
    cases hq'
    cases ho
    cases hw
    exact hr
  have h₄ := h₃.step (by decide) hc₃ e₄
  have h₅ := h₄.execAll (by decide) (by simp [probing, Covered]) e₅
  have hc : s₅.Covered sha256 reclaimGrace .compare := covered_compare (by decide) (by decide)
  have hl : s₅.last ≤ reclaimGrace := by decide
  have hk : (s₅.cache.keysAt .asListed reclaimGrace).length = 1 := by decide
  obtain ⟨checks, mark, answered, hp, hs⟩ := probed_of_skips (show s₅.skips from by decide)
  exact ⟨s₅, checks, mark, answered, h₅, hp, hs, hl, hc, hk, h₅.skips_nothing hp hs hl hc⟩

end Reclaimer
end Nanocached
