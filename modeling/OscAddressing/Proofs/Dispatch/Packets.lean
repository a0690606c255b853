import OscAddressing.Proofs.Dispatch.Finishing

/-!
# Packets are dispatched message by message

To dispatch a packet is to dispatch its messages one after the other, down into bundles and from
left to right, each in the state that the callbacks of the ones before have left. `Delivered` says
this along the packet, bundle by bundle, and of dispatches by their coming to an end;
`dispatchPacket_delivered` says that it is what the dispatch of a packet does.

The dispatch itself goes through the list of all messages of the packet. That the two agree rests on
dispatching a list being dispatching its parts (`dispatchEach_append`). It also follows that the
grouping of messages into bundles, and the time tags, make no difference (`Rewrapped`).
-/

namespace OscAddressing

namespace Packet

variable {α : Type}

/-! ### The messages of a packet -/

/-- Induction over packets one after the other, down into bundles. -/
@[elab_as_elim]
theorem inductionEach {P : List (Packet α) → Prop} (nil : P [])
    (message : ∀ message rest, P rest → P (.message message :: rest))
    (bundle : ∀ time elements rest, P elements → P rest → P (.bundle time elements :: rest)) :
    ∀ packets, P packets
  | [] => nil
  | .message m :: rest => message m rest (inductionEach nil message bundle rest)
  | .bundle time elements :: rest => bundle time elements rest
      (inductionEach nil message bundle elements) (inductionEach nil message bundle rest)

theorem messagesEach_append (packets more : List (Packet α)) :
    messagesEach (packets ++ more) = messagesEach packets ++ messagesEach more := by
  induction packets with
  | nil => rfl
  | cons packet packets ih =>
    rw [List.cons_append, messagesEach, messagesEach, ih, List.append_assoc]

/-- **Packets that differ in how they are wrapped.** A bundle may have another time tag, any run of
its elements may be in a bundle of its own, and so may a whole packet; and all this at any depth. -/
inductive Rewrapped : Packet α → Packet α → Prop
  | refl (packet : Packet α) : Rewrapped packet packet
  | symm {packet packet' : Packet α} : Rewrapped packet packet' → Rewrapped packet' packet
  | trans {packet packet' packet'' : Packet α} :
      Rewrapped packet packet' → Rewrapped packet' packet'' → Rewrapped packet packet''
  | retimed (time time' : TimeTag) (elements : List (Packet α)) :
      Rewrapped (.bundle time elements) (.bundle time' elements)
  | wrapped (time time' : TimeTag) (left run right : List (Packet α)) :
      Rewrapped (.bundle time (left ++ run ++ right))
        (.bundle time (left ++ .bundle time' run :: right))
  | enclosed (time : TimeTag) (packet : Packet α) : Rewrapped packet (.bundle time [packet])
  | within (time : TimeTag) (left right : List (Packet α)) {packet packet' : Packet α} :
      Rewrapped packet packet' →
        Rewrapped (.bundle time (left ++ packet :: right)) (.bundle time (left ++ packet' :: right))

/-- **Wrapping changes no messages.** -/
theorem Rewrapped.messages_eq {packet packet' : Packet α} (h : Rewrapped packet packet') :
    packet.messages = packet'.messages := by
  induction h with
  | refl => rfl
  | symm _ ih => exact ih.symm
  | trans _ _ ih ih' => exact ih.trans ih'
  | retimed => rfl
  | wrapped time time' left run right =>
    rw [messages, messages, messagesEach_append, messagesEach_append, messagesEach_append,
      messagesEach, messages, List.append_assoc]
  | enclosed time packet => rw [messages, messagesEach, messagesEach, List.append_nil]
  | within time left right _ ih =>
    rw [messages, messages, messagesEach_append, messagesEach_append, messagesEach, messagesEach,
      ih]

end Packet

namespace Live

variable {τ α : Type} {context : Context}

/-! ### Messages one after the other -/

/-- **One dispatch and then another**, from where the first ends, with the methods of both; there is
no outcome if one of them has none. -/
def andThen (first second : Live τ α → Option (List MethodId × Live τ α)) (live : Live τ α) :
    Option (List MethodId × Live τ α) :=
  (first live).bind fun (methods, middle) ↦
    (second middle).map fun (later, final) ↦ (methods ++ later, final)

variable {first second third : Live τ α → Option (List MethodId × Live τ α)}

theorem andThen_eq_some_iff {live live' : Live τ α} {methods : List MethodId} :
    andThen first second live = some (methods, live') ↔
      ∃ earlier middle later, first live = some (earlier, middle) ∧
        second middle = some (later, live') ∧ methods = earlier ++ later := by
  simp only [andThen, Option.bind_eq_some_iff, Option.map_eq_some_iff, Prod.exists,
    Prod.mk.injEq]
  constructor
  · rintro ⟨earlier, middle, hfirst, later, _, hsecond, rfl, rfl⟩
    exact ⟨earlier, middle, later, hfirst, hsecond, rfl⟩
  · rintro ⟨earlier, middle, later, hfirst, hsecond, rfl⟩
    exact ⟨earlier, middle, hfirst, later, live', hsecond, rfl, rfl⟩

theorem andThen_assoc (live : Live τ α) :
    andThen (andThen first second) third live = andThen first (andThen second third) live := by
  refine Option.ext fun outcome ↦ ?_
  obtain ⟨methods, live'⟩ := outcome
  simp only [andThen_eq_some_iff]
  constructor
  · rintro ⟨_, middle', last, ⟨earlier, middle, later, hfirst, hsecond, rfl⟩, hthird, rfl⟩
    exact ⟨earlier, middle, later ++ last, hfirst, ⟨later, middle', last, hsecond, hthird, rfl⟩,
      List.append_assoc ..⟩
  · rintro ⟨earlier, middle, _, hfirst, ⟨later, middle', last, hsecond, hthird, rfl⟩, rfl⟩
    exact ⟨earlier ++ later, middle', last, ⟨earlier, middle, later, hfirst, hsecond, rfl⟩, hthird,
      (List.append_assoc ..).symm⟩

theorem dispatchEach_cons (one : Dispatcher τ α) (context : Context) (message : Message α)
    (messages : List (Message α)) (live : Live τ α) :
    dispatchEach one context (message :: messages) live =
      andThen (one message context) (dispatchEach one context messages) live := by
  refine Option.ext fun outcome ↦ ?_
  obtain ⟨methods, live'⟩ := outcome
  rw [dispatchEach_cons_eq_some_iff, andThen_eq_some_iff]

/-- **To dispatch a list of messages is to dispatch its parts.** -/
theorem dispatchEach_append (one : Dispatcher τ α) (context : Context)
    (messages more : List (Message α)) (live : Live τ α) :
    dispatchEach one context (messages ++ more) live =
      andThen (dispatchEach one context messages) (dispatchEach one context more) live := by
  induction messages generalizing live with
  | nil => simp [dispatchEach, andThen]
  | cons message messages ih =>
    have hcons := funext (dispatchEach_cons one context message messages)
    rw [List.cons_append, dispatchEach_cons, funext ih, hcons, andThen_assoc]

/-! ### Packets one after the other -/

/-- **Packets are delivered**: from left to right, a message by a dispatch that comes to its end,
and a bundle by its elements. What is delivered later finds the state that is left by what was
delivered before; the methods, and the entries in the log, are put one after the other. -/
inductive Delivered (context : Context) :
    List (Packet α) → Live τ α → List MethodId → List (LogEntry τ α) → Live τ α → Prop
  | nil (live : Live τ α) : Delivered context [] live [] [] live
  | message {message : Message α} {rest : List (Packet α)} {live middle final : Live τ α}
      {methods later : List MethodId} {entries more : List (LogEntry τ α)} :
      Finishes message context live methods middle → middle.log = live.log ++ entries →
        Delivered context rest middle later more final →
        Delivered context (.message message :: rest) live (methods ++ later) (entries ++ more) final
  | bundle {time : TimeTag} {elements rest : List (Packet α)} {live middle final : Live τ α}
      {methods later : List MethodId} {entries more : List (LogEntry τ α)} :
      Delivered context elements live methods entries middle →
        Delivered context rest middle later more final →
        Delivered context (.bundle time elements :: rest) live (methods ++ later)
          (entries ++ more) final

theorem Delivered.log {packets : List (Packet α)} {live live' : Live τ α} {methods : List MethodId}
    {entries : List (LogEntry τ α)} (h : Delivered context packets live methods entries live') :
    live'.log = live.log ++ entries := by
  induction h with
  | nil live => exact (List.append_nil _).symm
  | message _ hlog _ ih => rw [ih, hlog, List.append_assoc]
  | bundle _ _ ih ih' => rw [ih', ih, List.append_assoc]

/-- A dispatch that comes to its end only adds to the log. -/
theorem Finishes.exists_log {message : Message α} {live live' : Live τ α} {methods : List MethodId}
    (h : Finishes message context live methods live') :
    ∃ entries, live'.log = live.log ++ entries := by
  obtain ⟨entries, htold⟩ := told_invokes h.steps
  exact ⟨entries, htold.log⟩

/-- **What is delivered is dispatched.** -/
theorem Delivered.dispatchEach_eq {packets : List (Packet α)} {live live' : Live τ α}
    {methods : List MethodId} {entries : List (LogEntry τ α)}
    (h : Delivered context packets live methods entries live') :
    dispatchEach dispatch context (Packet.messagesEach packets) live = some (methods, live') := by
  induction h with
  | nil => rfl
  | message hfinishes _ _ ih =>
    rw [Packet.messagesEach, Packet.messages, List.singleton_append, dispatchEach_cons_eq_some_iff]
    exact ⟨_, _, _, dispatch_eq_some_iff.2 hfinishes, ih, rfl⟩
  | bundle _ _ ih ih' =>
    rw [Packet.messagesEach, Packet.messages, dispatchEach_append, andThen_eq_some_iff]
    exact ⟨_, _, _, ih, ih', rfl⟩

/-- **What is dispatched is delivered.** -/
theorem exists_delivered {packets : List (Packet α)} {live live' : Live τ α}
    {methods : List MethodId}
    (hrun : dispatchEach dispatch context (Packet.messagesEach packets) live =
      some (methods, live')) :
    ∃ entries, Delivered context packets live methods entries live' := by
  induction packets using Packet.inductionEach generalizing live live' methods with
  | nil =>
    obtain ⟨rfl, rfl⟩ := Prod.mk.inj (Option.some.inj hrun)
    exact ⟨[], .nil live⟩
  | message message rest ih =>
    rw [Packet.messagesEach, Packet.messages, List.singleton_append,
      dispatchEach_cons_eq_some_iff] at hrun
    obtain ⟨earlier, middle, later, hfirst, hlater, rfl⟩ := hrun
    have hfinishes := dispatch_eq_some_iff.1 hfirst
    obtain ⟨entries, hlog⟩ := hfinishes.exists_log
    obtain ⟨more, hrest⟩ := ih hlater
    exact ⟨entries ++ more, .message hfinishes hlog hrest⟩
  | bundle time elements rest ih ih' =>
    rw [Packet.messagesEach, Packet.messages, dispatchEach_append, andThen_eq_some_iff] at hrun
    obtain ⟨earlier, middle, later, hfirst, hlater, rfl⟩ := hrun
    obtain ⟨entries, helements⟩ := ih hfirst
    obtain ⟨more, hrest⟩ := ih' hlater
    exact ⟨entries ++ more, .bundle helements hrest⟩

/-- **A packet is dispatched message by message**, whatever the state. Its dispatch has an outcome
exactly when it can be delivered, and then the methods, the entries in the log and the state
afterwards are those of the delivery. A message is dispatched as such; a bundle of packets is
dispatched by one bundle of the first of them and another of the rest, with no outcome if one of
these has none; and packets that differ in how they are wrapped are dispatched alike. -/
theorem dispatchPacket_delivered (context : Context) (live : Live τ α) :
    (∀ packet methods live', dispatchPacket packet context live = some (methods, live') ↔
      ∃ entries, Delivered context [packet] live methods entries live') ∧
    (∀ packet methods entries live', Delivered context [packet] live methods entries live' →
      live'.log = live.log ++ entries) ∧
    (∀ message, dispatchPacket (.message message) context live = dispatch message context live) ∧
    (∀ time time' time'' packets more,
      dispatchPacket (.bundle time (packets ++ more)) context live =
        andThen (dispatchPacket (.bundle time' packets) context)
          (dispatchPacket (.bundle time'' more) context) live) ∧
    ∀ packet packet', Packet.Rewrapped packet packet' →
      dispatchPacket packet context live = dispatchPacket packet' context live := by
  have hone : ∀ packet : Packet α, Packet.messagesEach [packet] = packet.messages := by
    intro packet
    rw [Packet.messagesEach, Packet.messagesEach, List.append_nil]
  refine ⟨fun packet methods live' ↦ ⟨fun hrun ↦ ?_, ?_⟩, fun _ _ _ _ hdelivered ↦ hdelivered.log,
    fun message ↦ ?_, fun time time' time'' packets more ↦ ?_, fun packet packet' hsame ↦ ?_⟩
  · rw [dispatchPacket, ← hone] at hrun
    exact exists_delivered hrun
  · rintro ⟨entries, hdelivered⟩
    rw [dispatchPacket, ← hone]
    exact hdelivered.dispatchEach_eq
  · rw [dispatchPacket, Packet.messages, dispatchEach_cons, andThen]
    cases dispatch message context live <;> simp [dispatchEach]
  · rw [dispatchPacket, Packet.messages, Packet.messagesEach_append, dispatchEach_append]
    rfl
  · rw [dispatchPacket, dispatchPacket, hsame.messages_eq]

/-- The callback that the first message invokes unregisters what the second is for, and registers
what the third is for, with a callback that is then invoked. The last two may as well be in one
bundle with the first. -/
theorem dispatchPacket_delivered_changing :
    let message (t : String) : Packet Unit := .message ⟨t.toList, []⟩
    let nested : Packet Unit := .bundle ⟨1, 0⟩
      [message "/a", .bundle ⟨2, 0⟩ [message "/b", message "/c"]]
    let flat : Packet Unit := .bundle ⟨3, 0⟩ [message "/a", message "/b", message "/c"]
    ∃ (live live' : Live Unit Unit) (entries : List (LogEntry Unit Unit)), Reached {} live [] ∧
      Delivered {} [nested] live [.issued 0, .issued 2] entries live' ∧
      (entries.filterMap (calledAt? 0)).map Call.method = [.issued 0, .issued 2] ∧
      live'.log = live.log ++ entries ∧
      dispatchPacket flat {} live = some ([.issued 0, .issued 2], live') := by
  intro message nested flat
  let live : Live Unit Unit := ⟨.after {} [
    .register "/a".toList (some ⟨(), [.request (.unregister "/b".toList),
      .request (.register "/c".toList (some ⟨(), []⟩))]⟩),
    .register "/b".toList (some ⟨(), []⟩)], []⟩
  have hreached : Reached {} live [] := .of_run {} _
  have houtcome : (dispatchPacket nested {} live).map (fun outcome ↦ (outcome.1,
      (outcome.2.log.filterMap (calledAt? 0)).map Call.method)) =
        some ([.issued 0, .issued 2], [.issued 0, .issued 2]) := by
    cbv
  obtain ⟨⟨methods, live'⟩, hrun, heq⟩ := Option.map_eq_some_iff.1 houtcome
  obtain ⟨rfl, hcalled⟩ := Prod.mk.inj heq
  obtain ⟨hdelivered, hlog, -, -, hrewrapped⟩ := dispatchPacket_delivered {} live
  obtain ⟨entries, hentries⟩ := (hdelivered nested _ live').1 hrun
  have hentriesLog : live'.log = live.log ++ entries := hlog _ _ _ _ hentries
  have hsame : Packet.Rewrapped flat nested :=
    .trans (.retimed ⟨3, 0⟩ ⟨1, 0⟩ _)
      (.wrapped ⟨1, 0⟩ ⟨2, 0⟩ [message "/a"] [message "/b", message "/c"] [])
  exact ⟨live, live', entries, hreached, hentries, by rwa [hentriesLog] at hcalled, hentriesLog,
    (hrewrapped flat nested hsame).trans hrun⟩

end Live

end OscAddressing
