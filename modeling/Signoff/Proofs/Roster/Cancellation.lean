import Signoff.Proofs.Roster.Completeness

/-!
# A cancellation is a clean cut

A reply can call off the resolution in the middle of an instant, when some of
the flights that are due have been polled and others have not. To say what
becomes of either, the work of an instant is taken apart here into single events
(`Event`), so that there is a stage right before and a stage right after each
poll.

Once a stage is cancelled every event after it does the same: it settles whom it
comes to as cancelled, and asks nobody (`Event.of_cancelled`). The event that
makes the difference is another matter. If the cancellation does not come from
outside, that event settles the very team whose reply brings it, and as the
reply says (`Event.cancelling`).

The events leave open when time leaps and when teams start. What is shown holds
along each way from the first stage to the last one, and the way of the program
is one of these (`occurs_last`).
-/

namespace Signoff.Resolution

open Roster (Status)

/-- A resolution in the middle of an instant. -/
structure Stage where
  state : State
  /-- The flights that are still to be polled. -/
  unpolled : List Flight

variable {b : Bounds} {directory : Directory} {teams : List String}
  {m n : Stage}

/-- Time leaps and all flights are to be polled, or one of them is polled, or
nothing is left in flight after a cancellation, or the turn of a team comes. -/
inductive Event (b : Bounds) (directory : Directory) : Stage → Stage → Prop
  | leap {s : State} {f : Flight} {others : List Flight} :
      s.inFlight = f :: others →
        Event b directory ⟨s, []⟩
          ⟨{ s.leap b (State.nextInstant b f others) with inFlight := [] },
            f :: others⟩
  | poll {s : State} {f : Flight} {others : List Flight} :
      Event b directory ⟨s, f :: others⟩ ⟨s.poll b f, others⟩
  | sweep {s : State} : Event b directory ⟨s, []⟩ ⟨s.sweep, []⟩
  | start {s : State} {team : String} {rest : List String} :
      s.waiting = team :: rest → s.inFlight.length < b.slots →
        Event b directory ⟨s, []⟩
          ⟨{ s.start b directory team with waiting := rest }, []⟩

namespace Stage

/-- The events may lead from one stage to the other. -/
def LeadsTo (b : Bounds) (directory : Directory) : Stage → Stage → Prop :=
  Relation.ReflTransGen (Event b directory)

def first (b : Bounds) (teams : List String) : Stage :=
  ⟨State.initial b teams, []⟩

def last (b : Bounds) (directory : Directory) (teams : List String) : Stage :=
  ⟨final b directory teams, []⟩

/-- The stage comes up between the first and the last one. -/
def Occurs (b : Bounds) (directory : Directory) (teams : List String)
    (m : Stage) : Prop :=
  (first b teams).LeadsTo b directory m ∧
    m.LeadsTo b directory (last b directory teams)

/-! ## Moves are made of events -/

theorem leadsTo_foldl_poll (s : State) (flights : List Flight) :
    LeadsTo b directory ⟨s, flights⟩ ⟨flights.foldl (State.poll b) s, []⟩ := by
  induction flights generalizing s with
  | nil => exact .refl
  | cons f flights ih => exact (ih _).head .poll

theorem leadsTo_of_move {s t : State} (hmove : State.Move b directory s t) :
    LeadsTo b directory ⟨s, []⟩ ⟨t, []⟩ := by
  cases hmove with
  | start hs hroom => exact .single (.start hs hroom)
  | @leap f others hs =>
      let later := s.leap b (State.nextInstant b f others)
      have hpolls : LeadsTo b directory
          ⟨{ later with inFlight := [] }, f :: others⟩
          ⟨(f :: others).foldl (State.poll b)
            { later with inFlight := [] }, []⟩ :=
        leadsTo_foldl_poll _ _
      have hsettle := hpolls.tail .sweep
      rw [← hs] at hsettle
      exact hsettle.head (hs ▸ .leap hs)

theorem leadsTo_of_moment {s : State} (h : State.Moment b directory teams s) :
    (first b teams).LeadsTo b directory ⟨s, []⟩ := by
  induction h with
  | refl => exact .refl
  | tail _ hmove ih => exact ih.trans (leadsTo_of_move hmove)

theorem occurs_last (b : Bounds) (directory : Directory) (teams : List String) :
    (last b directory teams).Occurs b directory teams :=
  ⟨leadsTo_of_moment (State.rests_final b directory teams).moment, .refl⟩

end Stage

/-! ## After a cancellation -/

/-- All these teams are settled as cancelled. -/
def cancelledAll (teams : List String) : List (String × Status) :=
  teams.map fun team => (team, .unknown .cancelled)

theorem sweep_of_cancelled {s : State} (h : s.cancelled = true) :
    s.sweep = { s with
      inFlight := []
      settled := s.settled ++ cancelledAll (s.inFlight.map Flight.team) } := by
  rw [State.sweep, if_pos h, cancelledAll, List.map_map]
  rfl

theorem State.cancelled_sweep (s : State) :
    s.sweep.cancelled = s.cancelled := by
  unfold sweep
  split <;> rfl

theorem Event.of_cancelled (h : Event b directory m n)
    (hc : m.state.cancelled = true) :
    n.state.cancelled = true ∧ n.state.begun = m.state.begun ∧
      ∃ gone, n.state.settled = m.state.settled ++ cancelledAll gone := by
  cases h with
  | leap hs =>
      refine ⟨?_, rfl, [], (List.append_nil _).symm⟩
      exact Bool.or_eq_true_iff.2 (Or.inl hc)
  | @poll s f others =>
      have hpoll : s.poll b f = s.record f.team (.unknown .cancelled) :=
        if_pos hc
      rw [hpoll]
      exact ⟨hc, rfl, [f.team], rfl⟩
  | sweep =>
      rw [sweep_of_cancelled hc]
      exact ⟨hc, rfl, _, rfl⟩
  | @start s team rest hs hroom =>
      have hreason : s.reason = .cancelled := if_pos hc
      rw [State.start_of_closed (Or.inl hc), hreason]
      exact ⟨hc, rfl, [team], rfl⟩

theorem Stage.LeadsTo.of_cancelled (h : m.LeadsTo b directory n)
    (hc : m.state.cancelled = true) :
    n.state.cancelled = true ∧ n.state.begun = m.state.begun ∧
      ∃ gone, n.state.settled = m.state.settled ++ cancelledAll gone := by
  induction h with
  | refl => exact ⟨hc, rfl, [], (List.append_nil _).symm⟩
  | tail _ hevent ih =>
      obtain ⟨hcancelled, hbegun, gone, hsettled⟩ := ih
      obtain ⟨hstill, hsame, more, hmore⟩ := hevent.of_cancelled hcancelled
      refine ⟨hstill, hsame.trans hbegun, gone ++ more, ?_⟩
      rw [hmore, hsettled, List.append_assoc]
      simp only [cancelledAll, List.map_append]

/-! ## The reply that cancels -/

/-- Each open question awaits the reply of the directory. -/
def Stage.IsFaithful (directory : Directory) (m : Stage) : Prop :=
  ∀ f ∈ m.state.inFlight ++ m.unpolled, f.reply = directory f.team

theorem Event.isFaithful (h : Event b directory m n)
    (hm : m.IsFaithful directory) : n.IsFaithful directory := by
  intro g hg
  cases h with
  | leap hs =>
      refine hm g ?_
      rw [List.append_nil, hs]
      exact hg
  | poll =>
      refine hm g ?_
      rcases List.mem_append.1 hg with hg | hg
      · rcases State.mem_inFlight_poll hg with hg | rfl
        · exact List.mem_append_left _ hg
        · exact List.mem_append_right _ List.mem_cons_self
      · exact List.mem_append_right _ (List.mem_cons_of_mem _ hg)
  | sweep =>
      rw [List.append_nil] at hg
      exact hm g (List.mem_append_left _ (State.mem_inFlight_sweep hg))
  | start hs hroom =>
      rw [List.append_nil] at hg
      rcases State.mem_inFlight_start hg with hg | ⟨hteam, hreply⟩
      · exact hm g (List.mem_append_left _ hg)
      · rw [hreply, hteam]

theorem Stage.LeadsTo.isFaithful
    (h : (Stage.first b teams).LeadsTo b directory m) :
    m.IsFaithful directory := by
  induction h with
  | refl => exact fun f hf => absurd hf List.not_mem_nil
  | tail _ hevent ih => exact hevent.isFaithful ih

namespace State

variable {s : State} {f : Flight} {team : String}

theorem poll_cancelling (hopen : s.cancelled = false)
    (hc : (s.poll b f).cancelled = true) :
    f.reply.cancels = true ∧ (s.poll b f).settled =
      s.settled ++ [(f.team, .ofAnswer f.reply.answer)] := by
  have hs : ¬ s.cancelled = true := ne_true_of_eq_false hopen
  simp only [poll, if_neg hs] at hc ⊢
  split at hc
  · exact absurd hc hs
  · next hexpired =>
      split at hc
      · next hdue =>
          rw [if_neg hexpired, if_pos hdue]
          exact ⟨(Bool.or_eq_true_iff.1 hc).resolve_left hs, rfl⟩
      · exact absurd hc hs

theorem start_cancelling (hopen : s.cancelled = false)
    (hc : (s.start b directory team).cancelled = true) :
    (directory team).cancels = true ∧
      ∃ gone, (s.start b directory team).settled = s.settled ++
        (team, .ofAnswer (directory team).answer) :: cancelledAll gone := by
  have hs : ¬ s.cancelled = true := ne_true_of_eq_false hopen
  by_cases hclosed : s.Closed b
  · rw [start_of_closed hclosed] at hc
    exact absurd hc hs
  · rw [start_of_open hclosed] at hc ⊢
    split at hc
    · next hdelay =>
        rw [cancelled_sweep] at hc
        rw [if_pos hdelay, sweep_of_cancelled hc]
        refine ⟨(Bool.or_eq_true_iff.1 hc).resolve_left hs,
          s.inFlight.map Flight.team, ?_⟩
        exact List.append_assoc _ _ _
    · exact absurd hc hs

end State

/-- An event that cancels, when it is not the time to be cancelled from outside,
settles the team whose reply cancels, and besides only cancels teams. -/
theorem Event.cancelling (h : Event b directory m n)
    (hfaithful : m.IsFaithful directory) (hopen : m.state.cancelled = false)
    (hc : n.state.cancelled = true) :
    b.cancelAt?.any (· ≤ n.state.now) = true ∨
      ∃ team gone, (directory team).cancels = true ∧
        n.state.settled = m.state.settled ++
          (team, .ofAnswer (directory team).answer) :: cancelledAll gone := by
  cases h with
  | leap hs =>
      exact Or.inl ((Bool.or_eq_true_iff.1 hc).resolve_left
        (ne_true_of_eq_false hopen))
  | @poll s f others =>
      obtain ⟨hcancels, hsettled⟩ := State.poll_cancelling hopen hc
      have hreply := hfaithful f (List.mem_append_right _ List.mem_cons_self)
      rw [hreply] at hcancels hsettled
      exact Or.inr ⟨f.team, [], hcancels, hsettled⟩
  | @sweep s =>
      have hstill : s.sweep.cancelled = false := by
        rw [State.cancelled_sweep]
        exact hopen
      exact absurd hc (ne_true_of_eq_false hstill)
  | start hs hroom =>
      obtain ⟨hcancels, gone, hsettled⟩ := State.start_cancelling hopen hc
      exact Or.inr ⟨_, gone, hcancels, hsettled⟩

/-! ## What becomes of the teams -/

/-- The resolution ends with these statuses, and with all other teams cancelled.
-/
def EndsWith (r : Resolution) (teams : List String)
    (kept : List (String × Status)) : Prop :=
  (∀ e ∈ kept, r.table.get? e.1 = some e.2) ∧
    ∀ team ∈ teams, team ∉ kept.map Prod.fst →
      r.table.get? team = some (.unknown .cancelled)

theorem get?_resolve_iff {team : String} {status : Status} :
    (resolve b directory teams).table.get? team = some status ↔
      (team, status) ∈ (final b directory teams).settled := by
  rw [RosterTable.get?_eq_some_iff,
    (entries_resolve_perm b directory teams).mem_iff]

theorem endsWith_of_settled {kept : List (String × Status)} {gone : List String}
    (hsettled : (final b directory teams).settled = kept ++ cancelledAll gone) :
    (resolve b directory teams).EndsWith teams kept := by
  refine ⟨fun e he => ?_, fun team hteam hnew => ?_⟩
  · rw [get?_resolve_iff, hsettled]
    exact List.mem_append_left _ he
  · have hmem : team ∈ (final b directory teams).settled.map Prod.fst :=
      (settled_final_perm b directory teams).mem_iff.2 (mem_ascending.2 hteam)
    obtain ⟨e, he, rfl⟩ := List.mem_map.1 hmem
    rw [get?_resolve_iff]
    have hall := he
    rw [hsettled] at hall
    rcases List.mem_append.1 hall with hkept | hgone
    · exact absurd (List.mem_map_of_mem hkept) hnew
    · obtain ⟨other, _, rfl⟩ := List.mem_map.1 hgone
      exact he

namespace Stage

theorem Occurs.endsWith (h : m.Occurs b directory teams)
    (hc : m.state.cancelled = true) :
    (resolve b directory teams).begun = m.state.begun ∧
      (resolve b directory teams).EndsWith teams m.state.settled := by
  obtain ⟨_, hbegun, gone, hsettled⟩ := h.2.of_cancelled hc
  exact ⟨hbegun, endsWith_of_settled hsettled⟩

theorem Occurs.endsWith_reply (hm : m.Occurs b directory teams)
    (hn : n.Occurs b directory teams) (hevent : Event b directory m n)
    (hopen : m.state.cancelled = false) (hc : n.state.cancelled = true) :
    b.cancelAt?.any (· ≤ n.state.now) = true ∨
      ∃ team ∈ teams, team ∉ m.state.settled.map Prod.fst ∧
        (directory team).cancels = true ∧
        (resolve b directory teams).EndsWith teams
          (m.state.settled ++ [(team, .ofAnswer (directory team).answer)]) := by
  refine (hevent.cancelling hm.1.isFaithful hopen hc).imp_right fun hreply => ?_
  obtain ⟨team, gone, hcancels, hsettled⟩ := hreply
  obtain ⟨_, _, more, hlast⟩ := hn.2.of_cancelled hc
  rw [hsettled] at hlast
  have hend : (final b directory teams).settled =
      (m.state.settled ++ [(team, .ofAnswer (directory team).answer)]) ++
        cancelledAll (gone ++ more) := by
    refine hlast.trans ?_
    simp [cancelledAll]
  have hperm := settled_final_perm b directory teams
  have hnodup := hperm.nodup_iff.2
    (nodup_of_isAscending (isAscending_ascending teams))
  rw [hend] at hperm hnodup
  refine ⟨team, ?_, ?_, hcancels, endsWith_of_settled hend⟩
  · refine mem_ascending.1 (hperm.mem_iff.1 ?_)
    simp
  · intro hearlier
    rw [List.append_assoc, List.map_append] at hnodup
    exact (List.nodup_append.1 hnodup).2.2 team hearlier team (by simp) rfl

end Stage

open Stage (Occurs)

/-- Once a stage is cancelled nobody is asked any more, all statuses stay, and
the teams without one are cancelled. If a reply has made it so, the team of that
reply is the only one that is settled otherwise after the stage before. In the
end each team has a status. -/
theorem clean_cut_of_cancellation [Clock] {directory : Directory}
    {limits : Limits} {cancelAt? : Option Nat} {teams : List String}
    (hclock : ∀ span ∈ limits.timeout?, Clock.Reaches span) :
    ∃ b, Bounds.ofLimits limits cancelAt? = .ok b ∧
      let r := resolve b directory teams
      Directory.lookUp (some directory) limits cancelAt? teams = .ok (some r) ∧
      (Stage.last b directory teams).Occurs b directory teams ∧
      (∀ m : Stage, m.Occurs b directory teams → m.state.cancelled = true →
        r.begun = m.state.begun ∧ r.EndsWith teams m.state.settled) ∧
      (∀ m n : Stage, m.Occurs b directory teams → n.Occurs b directory teams →
        Event b directory m n → m.state.cancelled = false →
        n.state.cancelled = true →
        cancelAt?.any (· ≤ n.state.now) = true ∨
          ∃ team ∈ teams, team ∉ m.state.settled.map Prod.fst ∧
            (directory team).cancels = true ∧
            r.EndsWith teams (m.state.settled ++
              [(team, .ofAnswer (directory team).answer)])) ∧
      r.table.teams = ascending teams := by
  refine ⟨_, Bounds.ofLimits_eq_ok hclock,
    Directory.lookUp_eq_ok hclock directory cancelAt? teams,
    Stage.occurs_last _ _ _, ?_, ?_, teams_resolve _ _ _⟩
  · intro m hm hc
    exact hm.endsWith hc
  · intro m n hm hn hevent hopen hc
    exact hm.endsWith_reply hn hevent hopen hc

/-- Of two open questions the first is answered with a cancellation. The other
one is due at the same instant and too late, and a third team is never asked
about. -/
theorem clean_cut_of_cancellation_two_slots :
    let directory : Directory := fun team =>
      .after 5 (.ok ⟨team, ["ann"]⟩) (team == "core")
    let limits : Limits := ⟨2, some ⟨1, 0⟩⟩
    let teams := ["web", "core", "docs"]
    (∀ span ∈ limits.timeout?, Clock.Reaches span) ∧
      ∃ b, Bounds.ofLimits limits none = .ok b ∧
        (resolve b directory teams).begun = [("core", 0), ("docs", 0)] ∧
        (resolve b directory teams).EndsWith teams
          [("core", .known ["ann"])] := by
  intro directory limits teams
  have hclock : ∀ span ∈ limits.timeout?, Clock.Reaches span := by
    decide
  obtain ⟨b, hb, _, _, hcancelled, hreply, _⟩ :=
    @clean_cut_of_cancellation _ directory limits none teams hclock
  let bounds : Bounds := ⟨2, by decide, some 1000, none⟩
  obtain rfl : bounds = b := Except.ok.inj hb
  -- The stages right before and right after the poll that cancels.
  let core : Flight := ⟨"core", 5, directory "core"⟩
  let docs : Flight := ⟨"docs", 5, directory "docs"⟩
  let begun := [("core", 0), ("docs", 0)]
  let before : Stage := ⟨⟨5, false, ["web"], [], [], begun⟩, [core, docs]⟩
  let after : Stage :=
    ⟨⟨5, true, ["web"], [], [("core", .known ["ann"])], begun⟩, [docs]⟩
  have hfirst : (Stage.first bounds teams).LeadsTo bounds directory before :=
    .head (.start rfl (by decide)) <| .head (.start rfl (by decide)) <|
      .single (@Event.leap _ _ _ core [docs] rfl)
  have hpoll : Event bounds directory before after := .poll
  have hlast : after.LeadsTo bounds directory
      (Stage.last bounds directory teams) := by
    have hfinal : final bounds directory teams =
        ⟨5, true, [], [], [("core", .known ["ann"]),
          ("docs", .unknown .cancelled), ("web", .unknown .cancelled)],
          begun⟩ := by
      cbv
    rw [Stage.last, hfinal]
    exact .head .poll <| .single (.start rfl (by decide))
  have hbefore : before.Occurs bounds directory teams :=
    ⟨hfirst, hlast.head hpoll⟩
  have hafter : after.Occurs bounds directory teams :=
    ⟨hfirst.tail hpoll, hlast⟩
  refine ⟨hclock, bounds, hb, (hcancelled after hafter rfl).1, ?_⟩
  obtain ⟨team, _, _, hcancels, hends⟩ :=
    (hreply before after hbefore hafter hpoll rfl rfl).resolve_left (by decide)
  obtain rfl : team = "core" := beq_iff_eq.1 hcancels
  exact hends

end Signoff.Resolution
