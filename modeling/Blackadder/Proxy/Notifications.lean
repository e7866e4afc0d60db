import Blackadder.Proxy.Disconnect

namespace Blackadder.Proxy

open Program HashTable Option List

variable {pubs : HashTable Ptr MessageType} {state : MessageType} {p : Ptr}

theorem Alone.setState (ha : Alone pubs p) : Alone (setState pubs p state) p := by
  intro q hs
  by_contra different
  rw [Proxy.setState, get_modify, if_neg different] at hs
  exact different (ha q hs)

theorem calms_stop (pubs : HashTable Ptr MessageType) (p : Ptr) :
    Calms pubs (setState pubs p .stopPublish) := by
  intro q state after
  rw [setState, get_modify] at after
  split at after
  · obtain ⟨old, before, rfl⟩ := map_eq_some_iff.mp after
    exact ⟨old, before, nofun, absurd rfl⟩
  · exact ⟨state, after, fun same => same, fun same => same⟩

/-- A change of all states that starts nobody and leaves alone who has been stopped. -/
theorem calms_mapValues (pubs : HashTable Ptr MessageType)
    {change : MessageType → MessageType} (started : ∀ state, change state ≠ .startPublish ∨
      state = .startPublish) (stops : change .stopPublish = .stopPublish) :
    Calms pubs (pubs.mapValues change) := by
  intro q state after
  rw [get_mapValues] at after
  obtain ⟨old, before, rfl⟩ := map_eq_some_iff.mp after
  refine ⟨old, before, fun hs => (started old).resolve_left (not_not_intro hs), ?_⟩
  rintro running rfl
  exact running stops

theorem calms_setState {old : MessageType} (before : pubs.get p = some old)
    (running : old ≠ .stopPublish) (idle : state ≠ .startPublish) :
    Calms pubs (setState pubs p state) := by
  intro q now after
  rw [setState, get_modify] at after
  split at after
  · rename_i same
    obtain ⟨val, hf, rfl⟩ := map_eq_some_iff.mp after
    rw [same] at hf
    obtain rfl := some.inj (hf.symm.trans before)
    exact ⟨val, same ▸ before, fun hs => absurd hs idle, fun _ => running⟩
  · exact ⟨now, after, fun same => same, fun same => same⟩

variable [IterationOrder] {pol : Policy} {actor : Ptr} {s : LocalProxy} {id : ID} {α : Type}

theorem quiet_steps {m : LP α} (hq : Respects Quiet m) :
    wlp m (fun _ => Steps pol actor s) s :=
  wp_post (hq s) fun _ _ hs => .single (.quiet hs)

variable {s1 : LocalProxy}

theorem Steps.andQuiet {m : LP α} (steps : Steps pol actor s s1) (hq : Respects Quiet m) :
    wlp m (fun _ => Steps pol actor s) s1 :=
  wp_post (hq s1) fun _ _ hs => steps.tail (.quiet hs)

theorem Steps.andThen {m : LP α} (steps : Steps pol actor s s1)
    (next : wlp m (fun _ => Steps pol actor s1) s1) :
    wlp m (fun _ => Steps pol actor s) s1 :=
  wp_post next fun _ _ more => steps.trans more

section

/-- Of the publishers of a publication, only the one that comes first may have been started. -/
def FirstAlone (publishers : HashTable Ptr MessageType) : Prop :=
  ∀ first, publishers.first? = some first → Alone publishers first

/-- `START_PUBLISH` for identifiers under which nobody but the first publisher is started. -/
def StartsOrderly (s : LocalProxy) (ids : List ID) : Prop :=
  ∀ id ∈ ids, ∀ ap, s.activePublicationIndex.get id = some ap → FirstAlone ap.publishers

/-- The publications under the identifiers know them all, and have the publishers they had. -/
def Informed (ids visited : List ID) (s s' : LocalProxy) : Prop :=
  ∀ id ap', s'.activePublicationIndex.get id = some ap' →
    (id ∈ visited → ap'.allKnownIDs = ids) ∧
    ∃ ap, s.activePublicationIndex.get id = some ap ∧ ap'.publishers = ap.publishers

theorem storeFid_spec (pol : Policy) (actor : Ptr) (ids : List ID) (fid : BABitvector)
    {fault : Fault → Prop} :
    wp (storeFid ids fid) (fun _ s' => Steps pol actor s s' ∧ Informed ids ids s s') fault s := by
  refine wp_forM_visited ids _ (fun seen s' => Steps pol actor s s' ∧
    Informed ids seen s s') ?_ s ⟨.refl, fun id ap hf => ⟨by simp, ap, hf, rfl⟩⟩
  rintro seen id rest s1 split ⟨steps, informed⟩
  have hi : id ∈ ids := by simp [split]
  have learns : Step pol actor s1 (s1.revise id fun ap =>
      { ap with allKnownIDs := ids, fidToSubscribers := fid }) :=
    .learn (some fid) (ne_nil_of_mem hi) (Or.inr (Or.inl hi))
  refine ⟨steps.tail learns, fun other ap' hf => ?_⟩
  rw [get_modify] at hf
  by_cases same : other = id
  · rw [if_pos same] at hf
    obtain ⟨old, hs, rfl⟩ := map_eq_some_iff.mp hf
    exact ⟨fun _ => rfl, (informed other old hs).2⟩
  · rw [if_neg same] at hf
    have before := informed other ap' hf
    refine ⟨fun hm => before.1 ?_, before.2⟩
    simpa [same] using hm

/-- The publications under the identifiers are ready for a start. -/
def Ready (crowds : Prop) (ids : List ID) (s : LocalProxy) : Prop :=
  ∀ id ∈ ids, ∀ ap, s.activePublicationIndex.get id = some ap →
    ap.allKnownIDs ≠ [] ∧ (crowds ∨ FirstAlone ap.publishers)

variable {ids : List ID}

theorem startFirst_spec (ready : Ready pol.crowds ids s) (hi : id ∈ ids) :
    wlp (startFirst id) (fun _ s' => Steps pol actor s s' ∧ Ready pol.crowds ids s') s := by
  simp only [startFirst, wp_bind, wp_read]
  cases first : (s.activePublicationIndex.get id).bind (·.publishers.first?) with
  | none => exact ⟨.refl, ready⟩
  | some p =>
    obtain ⟨ap, hf, isFirst⟩ := bind_eq_some_iff.mp first
    obtain ⟨hk, ha⟩ := ready id hi ap hf
    let s1 := s.setPublisher id p .startPublish
    have started : Step pol actor s s1 := .start hf hk (ha.imp_right fun ha => ha p isFirst)
    have ready1 : Ready pol.crowds ids s1 := by
      intro other hm entry hs
      simp only [s1, LocalProxy.setPublisher, LocalProxy.revise, get_modify] at hs
      by_cases same : other = id
      · rw [if_pos same, same, hf] at hs
        obtain rfl := some.inj hs
        refine ⟨hk, ha.imp_right fun ha q isFirst' => ?_⟩
        have sameFirst : q = p := by
          simp only [HashTable.first?, setState, keys_modify] at isFirst' isFirst
          exact some.inj (isFirst'.symm.trans isFirst)
        rw [sameFirst]
        exact (ha p isFirst).setState
      · rw [if_neg same] at hs
        exact ready other hm entry hs
    refine wp_post (sendNotificationLocally_quiet .startPublish p id s1) fun _ s' hq => ?_
    refine ⟨.tail (.single started) (.quiet hq), ?_⟩
    have same : s'.activePublicationIndex = s1.activePublicationIndex :=
      congrArg Tables.activePublicationIndex hq.tables
    rw [Ready, same]
    exact ready1

theorem stopStarted_spec (hi : id ∈ ids) :
    wlp (stopStarted ids id) (fun _ => Steps pol actor s) s := by
  simp only [stopStarted, wp_bind, wp_read]
  cases s.activePublicationIndex.get id with
  | none => exact .refl
  | some ap =>
    have learns : Step pol actor s (s.revise id fun ap =>
        { ap with allKnownIDs := ids, fidToSubscribers := .zeros }) :=
      .learn (some .zeros) (ne_nil_of_mem hi) (Or.inr (Or.inl hi))
    refine wp_forM _ _ (Steps pol actor s) ?_ _ (.single learns)
    intro host _ s1 steps
    simp only [wp_ite, wp_bind, wp_pure]
    refine ⟨fun _ => ?_, fun _ => steps⟩
    have stops : Step pol actor s1 (s1.setPublisher id host .stopPublish) :=
      .calm (revision_setPublisher _ _) (fun _ => rfl) fun ap _ => calms_stop ap.publishers host
    exact Steps.andQuiet (steps.tail stops) (sendNotificationLocally_quiet _ _ _)

def Policy.PermitsNotification (pol : Policy) (s : LocalProxy) (data : View) : Prop :=
  pol.crowds ∨ ((Wire.readNotification data).type = MessageType.startPublish.code →
    StartsOrderly s (Wire.readNotification data).ids)

omit [IterationOrder] in
theorem Informed.ready {s' : LocalProxy} (informed : Informed ids ids s s')
    (ho : pol.crowds ∨ StartsOrderly s ids) : Ready pol.crowds ids s' := by
  intro id hi ap' hf
  obtain ⟨hk, ap, hs, same⟩ := informed id ap' hf
  refine ⟨?_, ho.imp_right fun ho => ?_⟩
  · rw [hk hi]
    exact ne_nil_of_mem hi
  · rw [same]
    exact ho id hi ap hs

/-- A notification of the rendezvous takes permitted steps only. -/
theorem handleRVNotification_spec (p : Packet) (hp : pol.PermitsNotification s p.data) :
    wlp (handleRVNotification p) (fun _ => Steps pol actor s) s := by
  rw [handleRVNotification]
  refine wp_seq (look_quiet s) fun _ s1 hq => ?_
  have looked : Steps pol actor s s1 := .single (.quiet hq)
  have same : s1.activePublicationIndex = s.activePublicationIndex :=
    congrArg Tables.activePublicationIndex hq.tables
  dsimp only
  split
  · exact looked.andQuiet (notifyScopeSubscribers_respects sendNotificationLocally_quiet _ _)
  split
  · exact looked.andQuiet (notifyScopeSubscribers_respects sendNotificationLocally_quiet _ _)
  split
  · rename_i type
    refine wp_seq (storeFid_spec pol actor _ _) fun _ s2 hs => ?_
    have ho : pol.crowds ∨ StartsOrderly s1 (Wire.readNotification p.data).ids := by
      rw [StartsOrderly, same]
      exact hp.imp_right fun ho => ho type
    refine wp_post (wp_forM _ _ (fun s' => Steps pol actor s s' ∧
      Ready pol.crowds (Wire.readNotification p.data).ids s') ?_ s2
      ⟨looked.trans hs.1, hs.2.ready ho⟩) fun _ _ done => done.1
    intro id hi s3 hh
    exact wp_post (startFirst_spec hh.2 hi) fun _ _ done => ⟨hh.1.trans done.1, done.2⟩
  split
  · refine wp_seq (storeFid_spec pol actor _ _) fun _ s2 hs => ?_
    exact Steps.andQuiet (looked.trans hs.1)
      (.forM (updateFirst_respects sendNotificationLocally_quiet))
  split
  · exact looked.andQuiet (.update fun _ => .ofSame rfl rfl)
  split
  · exact looked.andQuiet (.update fun _ => .ofSame rfl rfl)
  split
  · refine wp_forM _ _ (Steps pol actor s) ?_ s1 looked
    intro id hi s2 steps
    exact wp_post (stopStarted_spec hi) fun _ _ done => steps.trans done
  split
  · exact looked.andQuiet
      (.forM fun _ => updateNode_respects sendNotificationLocally_quiet assignNode_quiet _ _)
  · exact looked

end

theorem invalidate_spec (lid : Wire.Fid) :
    wlp (invalidate lid id) (fun _ => Steps pol actor s) s := by
  simp only [invalidate, publicationAt, wp_bind, wp_expect]
  refine ⟨fun ap _ => ?_, fun _ => trivial⟩
  split
  · simp only [wp_ite, wp_pure]
    refine ⟨fun _ => .single (.calm ⟨fun _ => rfl, fun _ => rfl, fun _ => keys_mapValues _ _⟩
      (fun _ => rfl) fun ap _ => calms_mapValues _ ?_ rfl), fun _ => .refl⟩
    intro state
    cases state <;> simp
  · exact .refl

theorem processTMNotification_spec (p : Packet) :
    wlp (processTMNotification p) (fun _ => Steps pol actor s) s := by
  simp only [processTMNotification, wp_bind, wp_read]
  refine wp_post (look_quiet s) fun _ s1 looked => ?_
  refine wp_post (kill_quiet s1) fun _ s2 killed => ?_
  have start : Steps pol actor s s2 := .single (.quiet (looked.trans killed))
  refine wp_post (wp_forM _ _ (Steps pol actor s) ?_ s2 start) fun _ s3 steps => ?_
  · intro id _ s' steps
    exact wp_post (invalidate_spec _) fun _ _ done => steps.trans done
  · refine wp_post (steps.andQuiet (affectedNodes_respects _ _)) fun affected s4 steps => ?_
    exact steps.andQuiet (.ite publishiReqToRV_quiet .pure)

theorem pause_spec : wlp (pause id) (fun _ => Steps pol actor s) s := by
  simp only [pause, publicationAt, wp_bind, wp_expect]
  refine ⟨fun ap _ => ?_, fun _ => trivial⟩
  simp only [wp_ite, wp_pure]
  refine ⟨fun _ => .refl, fun _ => .single (.calm ⟨fun _ => rfl, fun _ => rfl, fun _ =>
    keys_mapValues _ _⟩ (fun _ => rfl) fun ap _ => calms_mapValues _ ?_ rfl)⟩
  intro state
  cases state <;> simp

theorem resume_spec : wlp (resume id) (fun _ => Steps pol actor s) s := by
  simp only [resume, publicationAt, wp_bind, wp_read, wp_expect]
  refine ⟨fun ap hf => ?_, fun _ => trivial⟩
  simp only [wp_ite]
  refine ⟨fun _ => .refl, fun _ => ?_⟩
  -- the states of the publishers that are still to come have not been changed
  refine wp_post (wp_forM_visited ap.publishers.keys _ (fun seen s' => Steps pol actor s s' ∧
    ∀ now, s'.activePublicationIndex.get id = some now →
      ∀ q ∉ seen, now.publishers.get q = ap.publishers.get q) ?_ s ⟨.refl, ?_⟩)
    fun _ _ done => done.1
  · rintro seen host rest s1 split ⟨steps, same⟩
    have new := not_visited split
    simp only [wp_ite, wp_bind, wp_expect]
    refine ⟨fun paused => ⟨fun name _ => ?_, fun _ => trivial⟩, fun _ =>
      ⟨steps, fun now hs q other =>
      same now hs q fun before => other (mem_append_left _ before)⟩⟩
    have resumes : Step pol actor s1 (s1.setPublisher id host .resumePublish) := by
      refine .calm (revision_setPublisher _ _) (fun _ => rfl) fun now hs => ?_
      have before : now.publishers.get host = some .pausePublish := by
        rw [same now hs host new, paused]
      exact calms_setState before (by decide) (by decide)
    refine wp_post (sendNotificationLocally_quiet .resumePublish host name _) fun _ s2 hq => ?_
    refine ⟨(steps.tail resumes).tail (.quiet hq), fun now hs q other => ?_⟩
    have sameTable : s2.activePublicationIndex = _ :=
      congrArg Tables.activePublicationIndex hq.tables
    rw [sameTable] at hs
    simp only [LocalProxy.tables, get_modify] at hs
    obtain ⟨old, was, rfl⟩ := map_eq_some_iff.mp hs
    simp only [mem_append, mem_singleton, not_or] at other
    rw [← same old was q other.1]
    simp [setState, get_modify, other.2]
  · intro now hs q _
    rw [hf] at hs
    rw [some.inj hs]

theorem updateStates_spec (state : UInt8) :
    wlp (updateStates state) (fun _ => Steps pol actor s) s := by
  have loop : ∀ (ids : List ID) (body : ID → LP Unit) (s1 : LocalProxy),
      (∀ id s1, wlp (body id) (fun _ => Steps pol actor s1) s1) →
      Steps pol actor s s1 →
      wlp (forM ids body) (fun _ => Steps pol actor s) s1 := by
    intro ids body s1 each start
    refine wp_forM ids body (Steps pol actor s) ?_ s1 start
    exact fun id _ s2 steps => wp_post (each id s2) fun _ _ done => steps.trans done
  simp only [updateStates, wp_bind, wp_read]
  split
  · simp only [wp_bind, wp_update]
    refine wp_post (loop _ _ _ (fun _ _ => pause_spec) (.single (.quiet (.ofSame rfl rfl)))) ?_
    exact fun _ s1 steps => steps.andQuiet (.forM fun _ => assignNode_quiet _ _)
  split
  · refine wp_seq (loop _ _ _ (fun _ _ => resume_spec) .refl) fun _ s1 steps => ?_
    exact steps.andQuiet (.ite publishiReqToRV_quiet .pure)
  · exact .refl

/-- The identifiers that a multicast replaces are those of the publication itself or of a scope. -/
def Policy.PermitsMulticast (pol : Policy) (s : LocalProxy) (id : ID) : Prop :=
  pol.adopts ∨ ∀ target, multicastTarget s.activePublicationIndex id = some target →
    target = id ∨ s.activePublicationIndex.Has target (·.isScope = true)

theorem handleUserMulticastRequest_spec (p : Packet) (nids : List NodeID)
    (hp : pol.PermitsMulticast s id) :
    wlp (handleUserMulticastRequest id p nids) (fun _ => Steps pol actor s) s := by
  simp only [handleUserMulticastRequest, wp_bind, wp_read]
  cases ht : multicastTarget s.activePublicationIndex id with
  | none => exact quiet_steps (.bind kill_quiet fun _ => kill_quiet)
  | some target =>
    have learns : Step pol actor s (s.revise target fun ap => { ap with allKnownIDs := [id] }) := by
      refine .learn none (cons_ne_nil _ _) (hp.imp_right fun own => ?_)
      exact (own target ht).imp_left mem_singleton.mpr
    simp only [assignPublication, wp_bind, wp_update, wp_read]
    refine wp_post (Steps.andQuiet (.single learns) (multicastFid_respects _ _)) fun fid s1 steps =>
      ?_
    exact steps.andQuiet pushTypedDataToRemoteSubscribers_quiet

end Blackadder.Proxy
