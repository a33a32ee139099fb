import NorFlash.Dediprog.Device
import NorFlash.Proofs.Traffic

namespace NorFlash

variable {η : Type}

namespace Dediprog

/-- The request that switches the supply of the chip off. -/
def powerOff : ControlOut := ⟨.endpoint, supplyCode, 0, 0, ByteArray.empty, requestTimeout⟩

/-- Whether the event is a request that switches the supply off. -/
def isPowerOff : UsbEvent → Bool
  | .sent _ r _ => r.request == supplyCode && r.value == 0
  | _ => false

/-- What is asked for before a claim is granted: no control request. -/
inductive Idle : UsbEvent → Prop where
  | listed : Idle .listed
  | opened (n : Nat) : Idle (.opened n)
  | refused (n i : Nat) (reason : String) : Idle (.claimed n i (.error reason))

/-- A control request to the device at a position, unless it switches the supply off. -/
inductive Plain (n : Nat) : UsbEvent → Prop where
  | received (r : ControlIn) (answer : Except String Bytes) : Plain n (.received n r answer)
  | sent (r : ControlOut) (answer : Except String Unit) (h : r.request = supplyCode → r.value ≠ 0) :
      Plain n (.sent n r answer)

/-- What one does with an open device: run a command, shut it down, wait, or have something told. -/
inductive Use where
  | execute (c : Command)
  | shutdown
  | wait (microseconds : Nat)
  | note (n : Notice)

def Use.perform (host : UsbHost η) : Use → Dediprog × η → Dediprog × η
  | .execute c, s => (Dediprog.execute host c s).2
  | .shutdown, s => (Dediprog.shutdown host s).2
  | .wait t, (d, h) => (d, host.sleep t h)
  | .note n, (d, h) => (d, host.note n h)

/-- A device that is open is used and dropped. -/
def useUp (host : UsbHost η) (uses : List Use) (s : Dediprog × η) : η :=
  let (d, h) := uses.foldl (fun s u => u.perform host s) s
  drop host d h

/-- A device is opened, used and dropped. One that does not open is not used. -/
def lifetime (host : UsbHost η) (c : Config) (uses : List Use) (h : η) : η :=
  match openWith host c h with
  | (.error _, h) => h
  | (.ok d, h) => useUp host uses (d, h)

/-- No command is run after a shutdown. -/
def Retiring (uses : List Use) : Prop :=
  ∀ before after c, uses = before ++ .shutdown :: after → .execute c ∉ after

/-- The device behind the recorded host is the same. Since a place in the record it has kept its
position and whether it is powered down, and there have been plain requests to it. -/
inductive Busy (n : Nat) (off : Bool) (log : List UsbEvent) :
    Dediprog × (η × List UsbEvent) → Dediprog × η → Prop where
  | mk (d : Dediprog) (h : η) (es : List UsbEvent) (hn : d.position = n) (hoff : d.released = off)
      (hes : ∀ e ∈ es, Plain n e) : Busy n off log (d, (h, log ++ es)) (d, h)

open Act (Mirrors)

variable {host : UsbHost η} {n : Nat} {off : Bool} {log : List UsbEvent} {α β ε : Type}

theorem Busy.add {d d' : Dediprog} {h h' : η} {es : List UsbEvent} {e : UsbEvent}
    (hb : Busy n off log (d, (h, es)) (d, h)) (hn : d'.position = n) (hoff : d'.released = off)
    (he : Plain n e) : Busy n off log (d', (h', es ++ [e])) (d', h') := by
  cases hb with
  | mk _ _ es _ _ hes =>
    rw [List.append_assoc]
    apply Busy.mk _ _ _ hn hoff
    intro e' he'
    rcases List.mem_append.mp he' with h | h
    · exact hes e' h
    · rw [List.mem_singleton.mp h]
      exact he

theorem tell_busy (m : Notice) : Mirrors (Busy n off log) (tell host.recorded m) (tell host m) := by
  apply Mirrors.modify
  rintro _ _ ⟨d, h, es, hn, hoff, hes⟩
  exact .mk d _ es hn hoff hes

theorem pause_busy (t : Nat) : Mirrors (Busy n off log) (pause host.recorded t) (pause host t) := by
  apply Mirrors.modify
  rintro _ _ ⟨d, h, es, hn, hoff, hes⟩
  exact .mk d _ es hn hoff hes

theorem update_busy {f : Dediprog → Dediprog}
    (hf : ∀ d, (f d).position = d.position ∧ (f d).released = d.released) :
    Mirrors (Busy (η := η) n off log) (update f) (update f) := by
  apply Mirrors.modify
  rintro _ _ ⟨d, h, es, hn, hoff, hes⟩
  exact .mk (f d) h es ((hf d).1.trans hn) ((hf d).2.trans hoff) hes

theorem read_busy (f : Dediprog → α) : Mirrors (Busy (η := η) n off log)
    (Act.read fun (d, _) => f d : Act _ ε α) (Act.read fun (d, _) => f d) := by
  apply Mirrors.read
  rintro _ _ ⟨d, h, es, hn, hoff, hes⟩
  rfl

theorem receive_busy (recipient : Recipient) (request value index length : Nat) :
    Mirrors (Busy n off log) (receive host.recorded recipient request value index length)
      (receive host recipient request value index length) := by
  intro s' s hb
  obtain ⟨d, h, es, hn, hoff, hes⟩ := hb
  cases hx : host.receive d.position
      ⟨recipient, request, value, index, length, requestTimeout⟩ h with
  | mk answer h' =>
    have hadd : Busy n off log (d, (h', log ++ es ++ [.received n
        ⟨recipient, request, value, index, length, requestTimeout⟩ answer])) (d, h') :=
      (Busy.mk d h es hn hoff hes).add hn hoff (.received _ answer)
    rw [← hn] at hadd ⊢
    simp only [receive, UsbHost.recorded, Act.recorded, hx]
    cases answer with
    | ok reply => exact ⟨rfl, hadd⟩
    | error reason => exact ⟨rfl, hadd⟩

theorem send_busy {request value : Nat} (index : Nat) (data : Bytes)
    (hplain : request = supplyCode → value ≠ 0) :
    Mirrors (Busy n off log) (send host.recorded request value index data)
      (send host request value index data) := by
  intro s' s hb
  obtain ⟨d, h, es, hn, hoff, hes⟩ := hb
  cases hx : host.send d.position ⟨.endpoint, request, value, index, data, requestTimeout⟩ h with
  | mk answer h' =>
    have hadd : Busy n off log (d, (h', log ++ es ++ [.sent n
        ⟨.endpoint, request, value, index, data, requestTimeout⟩ answer])) (d, h') :=
      (Busy.mk d h es hn hoff hes).add hn hoff (.sent _ answer hplain)
    rw [← hn] at hadd ⊢
    simp only [send, UsbHost.recorded, Act.recorded, hx]
    cases answer with
    | ok _ => exact ⟨rfl, hadd⟩
    | error reason => exact ⟨rfl, hadd⟩

theorem identify_busy (text : String) :
    Mirrors (Busy n off log) (identify host.recorded text) (identify host text) := by
  refine .bind (update_busy fun _ => ⟨rfl, rfl⟩) fun _ => .bind (tell_busy _) fun _ => ?_
  refine .bind (update_busy fun _ => ⟨rfl, rfl⟩) fun _ => ?_
  split
  · exact .fail _
  · cases Firmware.ofDeviceString? text with
    | none => exact .fail _
    | some firmware =>
      refine .bind (update_busy fun _ => ⟨rfl, rfl⟩) fun _ => ?_
      split
      · exact .pure ()
      · exact .fail _

theorem readDeviceString_busy :
    Mirrors (Busy n off log) (readDeviceString host.recorded) (readDeviceString host) := by
  refine .bind (receive_busy _ _ _ _ _) fun reply => ?_
  split
  · exact .fail _
  · exact identify_busy _

theorem greet_busy : Mirrors (Busy n off log) (greet host.recorded) (greet host) := by
  refine .bind (receive_busy _ _ _ _ _) fun reply => ?_
  split
  · exact .fail _
  · exact .pure ()

theorem setLeds_busy (led : Led) :
    Mirrors (Busy n off log) (setLeds host.recorded led) (setLeds host led) := by
  refine .bind (read_busy fun d => ledRequest d.protocol d.firmware led) fun request => ?_
  exact send_busy _ _ (by simp [ledCode, supplyCode])

theorem setTarget_busy (t : Target) :
    Mirrors (Busy n off log) (setTarget host.recorded t) (setTarget host t) :=
  .bind (tell_busy _) fun _ => send_busy _ _ (by simp [targetCode, supplyCode])

theorem setSpeed_busy (hertz : Nat) :
    Mirrors (Busy n off log) (setSpeed host.recorded hertz) (setSpeed host hertz) := by
  refine .bind (read_busy id) fun d => ?_
  split
  · exact tell_busy _
  · cases speedSelector? hertz with
    | none => exact .fail _
    | some selector =>
      exact .bind (tell_busy _) fun _ => send_busy _ _ (by simp [clockCode, supplyCode])

/-- A voltage other than zero is selected by another number than zero. -/
theorem voltageSelector?_ne_zero {millivolts selector : Nat} (h : millivolts ≠ 0)
    (hs : voltageSelector? millivolts = some selector) : selector ≠ 0 := by
  have hentry : ∀ v ∈ voltages, v.2 = 0 → v.1 = 0 := by decide
  intro hzero
  have hmem : (millivolts, selector) ∈ voltages := by
    obtain ⟨before, after, hsplit, _⟩ := List.lookup_eq_some_iff.mp hs
    rw [hsplit]
    simp
  exact h (hentry _ hmem hzero)

theorem setVoltage_busy {millivolts : Nat} (h : millivolts ≠ 0) :
    Mirrors (Busy n off log) (setVoltage host.recorded millivolts) (setVoltage host millivolts) := by
  unfold setVoltage
  cases hs : voltageSelector? millivolts with
  | none => exact .fail _
  | some selector =>
    have hne := voltageSelector?_ne_zero h hs
    simp only [beq_iff_eq, hne, bne_iff_ne, ne_eq, not_false_eq_true, if_true, if_false]
    refine .bind (tell_busy _) fun _ => .bind (send_busy _ _ fun _ => hne) fun _ => ?_
    exact pause_busy _

theorem leaveStandalone_busy :
    Mirrors (Busy n off log) (leaveStandalone host.recorded) (leaveStandalone host) :=
  .bind (tell_busy _) fun _ => send_busy _ _ (by simp [standaloneCode, supplyCode])

theorem setSingleMode_busy :
    Mirrors (Busy n off log) (setSingleMode host.recorded) (setSingleMode host) := by
  refine .bind (read_busy id) fun d => ?_
  split
  · refine .bind (tell_busy _) fun _ => ?_
    refine .bind (send_busy _ _ (by simp [modeCode, supplyCode])) fun _ => ?_
    exact update_busy fun _ => ⟨rfl, rfl⟩
  · exact .pure ()

/-- What is set up when the device has told what it is. -/
def configure (host : UsbHost η) (c : Config) : On η Unit := do
  update fun d => { d with protocol := Protocol.of d.model d.firmware }
  let d ← Act.read fun (d, _) => d
  if d.protocol == .unknown then Act.fail (.firmware "Unable to determine protocol version")
  else
    tell host (openedNotice d)
    setLeds host .all
    setTarget host c.target
    setSpeed host c.hertz
    setVoltage host c.millivolts
    if d.model == .sf600 then leaveStandalone host
    setLeds host .none

theorem setUp_eq (host : UsbHost η) (c : Config) : setUp host c =
    (readDeviceString host).attempt >>= fun r =>
      match r with
      | .ok () => configure host c
      | .error _ => greet host >>= fun _ => readDeviceString host >>= fun _ => configure host c :=
  rfl

theorem configure_busy {c : Config} (hc : c.millivolts ≠ 0) :
    Mirrors (Busy n off log) (configure host.recorded c) (configure host c) := by
  refine .bind (update_busy fun _ => ⟨rfl, rfl⟩) fun _ => .bind (read_busy id) fun d => ?_
  split
  · exact .fail _
  · refine .bind (tell_busy _) fun _ => .bind (setLeds_busy _) fun _ => ?_
    refine .bind (setTarget_busy _) fun _ => .bind (setSpeed_busy _) fun _ => ?_
    refine .bind (setVoltage_busy hc) fun _ => ?_
    dsimp only
    split
    · exact .bind leaveStandalone_busy fun _ => setLeds_busy _
    · exact setLeds_busy _

theorem setUp_busy {c : Config} (hc : c.millivolts ≠ 0) :
    Mirrors (Busy n off log) (setUp host.recorded c) (setUp host c) := by
  rw [setUp_eq, setUp_eq]
  refine .bind (.attempt readDeviceString_busy) fun r => ?_
  cases r with
  | ok _ => exact configure_busy hc
  | error f =>
    refine .bind greet_busy fun _ => .bind readDeviceString_busy fun _ => ?_
    exact configure_busy hc

variable (host)

theorem transceive_busy (data : Bytes) (want : Nat) :
    Mirrors (Busy n off log) (transceive host.recorded data want) (transceive host data want) := by
  unfold transceive
  split
  · exact .fail _
  · refine .bind setSingleMode_busy fun _ => ?_
    refine .bind (read_busy fun d => transceiveRequest d.protocol (want != 0)) fun request => ?_
    refine .bind (send_busy _ _ (by simp [transceiveCode, supplyCode])) fun _ => ?_
    split
    · exact .pure _
    · exact receive_busy _ _ _ _ _

theorem noteAll_busy (ns : List Notice) {d : Dediprog} {h' : η × List UsbEvent} {h : η}
    (hb : Busy n off log (d, h') (d, h)) :
    Busy n off log (d, ns.foldl (fun h m => host.recorded.note m h) h')
      (d, ns.foldl (fun h m => host.note m h) h) := by
  induction ns generalizing h' h with
  | nil => exact hb
  | cons m ns ih =>
    apply ih
    cases hb with
    | mk _ _ es hn hoff hes => exact .mk d _ es hn hoff hes

theorem exchange_busy (data : Bytes) (want : Nat) :
    Mirrors (Busy n off log) (exchange host.recorded data want) (exchange host data want) := by
  intro s' s hb
  obtain ⟨r, _, _, hx, hy, hb⟩ := (transceive_busy host data want).ends hb
  simp only [exchange, hx, hy]
  obtain ⟨d, h, es, hn, hoff, hes⟩ := hb
  cases r with
  | error f => exact ⟨rfl, .mk d _ es hn hoff hes⟩
  | ok reply => exact ⟨rfl, noteAll_busy host _ (.mk d h es hn hoff hes)⟩

theorem readStatus_busy :
    Mirrors (Busy n off log) (readStatus host.recorded) (readStatus host) :=
  .bind (exchange_busy host _ _) fun _ => .pure _

theorem pollWrite_busy {σ τ : Type} {R : σ → τ → Prop} {status : Act σ Error UInt8}
    {status' : Act τ Error UInt8} {wait giveUp : σ → σ} {wait' giveUp' : τ → τ}
    (hstatus : Mirrors R status status') (hwait : ∀ s t, R s t → R (wait s) (wait' t))
    (hgiveUp : ∀ s t, R s t → R (giveUp s) (giveUp' t)) (polls : Nat) :
    Mirrors R (pollWrite status wait giveUp polls) (pollWrite status' wait' giveUp' polls) := by
  induction polls with
  | zero => exact fun s t hr => ⟨rfl, hgiveUp s t hr⟩
  | succ polls ih =>
    intro s t hr
    obtain ⟨r, s', t', hx, hy, h'⟩ := hstatus.ends hr
    simp only [pollWrite, hx, hy]
    cases r with
    | error e => exact ⟨rfl, h'⟩
    | ok b =>
      dsimp only
      split
      · exact ⟨rfl, h'⟩
      · exact ih _ _ (hwait _ _ h')

theorem execute_busy (c : Command) : Mirrors (Busy n off log) (Dediprog.execute host.recorded c)
    (Dediprog.execute host c) := by
  refine .bind (exchange_busy host _ _) fun reply => ?_
  split
  · refine .bind (pollWrite_busy (readStatus_busy host) ?_ ?_ _) fun _ => .pure _
    · rintro _ _ ⟨d, h, es, hn, hoff, hes⟩
      exact .mk d _ es hn hoff hes
    · rintro _ _ ⟨d, h, es, hn, hoff, hes⟩
      exact .mk d _ es hn hoff hes
  · exact .pure _

theorem powerDown_of_released {d : Dediprog} (hd : d.released = true) (h : η) :
    powerDown host (d, h) = (.ok (), (d, h)) := by
  simp [powerDown, hd]

def supplyNotice : Notice :=
  .debug fun _ => s!"Setting SPI voltage to {0 / 1000}.{Text.decimal 3 (0 % 1000)}V"

theorem setVoltage_zero (host : UsbHost η) : setVoltage host 0 = (do
    tell host supplyNotice
    pause host settleTime
    send host supplyCode 0 0 ByteArray.empty
    pure ()) := rfl

/-- Switching the supply off is one request, whatever is answered to it. -/
theorem setVoltage_zero_recorded {s' : Dediprog × (η × List UsbEvent)} {s : Dediprog × η}
    (hb : Busy n off log s' s) : ∃ r d h es answer,
      setVoltage host.recorded 0 s' = (r, (d, (h, log ++ es ++ [.sent n powerOff answer]))) ∧
      setVoltage host 0 s = (r, (d, h)) ∧ d.position = n ∧ d.released = off ∧
      ∀ e ∈ es, Plain n e := by
  obtain ⟨d, h, es, rfl, rfl, hes⟩ := hb
  cases hx : host.send d.position powerOff (host.sleep settleTime (host.note supplyNotice h)) with
  | mk answer h' =>
    rw [powerOff] at hx
    rw [setVoltage_zero, setVoltage_zero]
    simp only [Act.bind_apply, tell, pause, send, Act.modify_apply, Act.pure_apply,
      UsbHost.recorded, Act.recorded, hx]
    cases answer with
    | ok _ => exact ⟨_, d, h', es, _, rfl, rfl, rfl, rfl, hes⟩
    | error reason => exact ⟨_, d, h', es, _, rfl, rfl, rfl, rfl, hes⟩

/-- The chip of a device that is not yet powered down is powered down by one request, the last. -/
theorem powerDown_recorded {d : Dediprog} (hn : d.position = n) (hoff : d.released = false) (h : η)
    (log : List UsbEvent) : ∃ r d' h' es answer,
      powerDown host.recorded (d, (h, log)) =
        (r, (d', (h', log ++ es ++ [.sent n powerOff answer]))) ∧
      powerDown host (d, h) = (r, (d', h')) ∧ d'.position = n ∧ d'.released = true ∧
      ∀ e ∈ es, Plain n e := by
  have hb : Busy n true log ({ d with released := true }, (h, log ++ []))
      ({ d with released := true }, h) := .mk _ _ [] hn rfl (by simp)
  rw [List.append_nil] at hb
  have hsingle : Mirrors (Busy n true log) (setSingleMode host.recorded) (setSingleMode host) :=
    setSingleMode_busy
  obtain ⟨mode, _, _, hx, hy, hmode⟩ := hsingle.ends hb
  obtain ⟨supply, d', h', es, answer, hx', hy', hn', hoff', hes⟩ :=
    setVoltage_zero_recorded host hmode
  refine ⟨mode.bind fun _ => supply, d', h', es, answer, ?_, ?_, hn', hoff', hes⟩
  · simp only [powerDown, hoff, hx, hx']
    rfl
  · simp only [powerDown, hoff, hy, hy']
    rfl

variable {d : Dediprog}

theorem drop_of_released (hoff : d.released = true) (h : η) (log : List UsbEvent) :
    drop host.recorded d (h, log) = (drop host d h, log ++ [.released d.position]) := by
  simp only [drop, powerDown_of_released _ hoff]
  rfl

theorem drop_recorded (hn : d.position = n) (hoff : d.released = false) (h : η)
    (log : List UsbEvent) : ∃ es answer, (∀ e ∈ es, Plain n e) ∧
      drop host.recorded d (h, log) =
        (drop host d h, log ++ es ++ [.sent n powerOff answer] ++ [.released n]) := by
  obtain ⟨r, d', h', es, answer, hx, hy, hn', _, hes⟩ := powerDown_recorded host hn hoff h log
  refine ⟨es, answer, hes, ?_⟩
  simp only [drop, hx, hy, hn']
  cases r with
  | ok _ => rfl
  | error f => rfl

theorem shutdown_of_released (hoff : d.released = true) (h : η) :
    Dediprog.shutdown host (d, h) = (.ok (), (d, h)) := by
  simp only [Dediprog.shutdown, powerDown_of_released _ hoff]

theorem shutdown_recorded (hn : d.position = n) (hoff : d.released = false) (h : η)
    (log : List UsbEvent) : ∃ d' h' es answer, d'.position = n ∧ d'.released = true ∧
      (∀ e ∈ es, Plain n e) ∧ (Dediprog.shutdown host (d, h)).2 = (d', h') ∧
      (Dediprog.shutdown host.recorded (d, (h, log))).2 =
        (d', (h', log ++ es ++ [.sent n powerOff answer])) := by
  obtain ⟨r, d', h', es, answer, hx, hy, hn', hoff', hes⟩ := powerDown_recorded host hn hoff h log
  simp only [Dediprog.shutdown, hx, hy]
  cases r with
  | ok _ => exact ⟨d', h', es, answer, hn', hoff', hes, rfl, rfl⟩
  | error f => exact ⟨d', _, es, answer, hn', hoff', hes, rfl, rfl⟩

/-- A command leaves the position and the supply alone. -/
theorem execute_recorded (c : Command) (hn : d.position = n) (hoff : d.released = off) (h : η)
    (log : List UsbEvent) : ∃ d' h' es, d'.position = n ∧ d'.released = off ∧
      (∀ e ∈ es, Plain n e) ∧ (Dediprog.execute host c (d, h)).2 = (d', h') ∧
      (Dediprog.execute host.recorded c (d, (h, log))).2 = (d', (h', log ++ es)) := by
  have hb : Busy n off log (d, (h, log ++ [])) (d, h) := .mk d h [] hn hoff (by simp)
  rw [List.append_nil] at hb
  obtain ⟨_, _, _, hx, hy, ⟨d', h', es, hn', hoff', hes⟩⟩ := (execute_busy host c).ends hb
  rw [hx, hy]
  exact ⟨d', h', es, hn', hoff', hes, rfl, rfl⟩

theorem useUp_cons (host : UsbHost η) (u : Use) (uses : List Use) (s : Dediprog × η) :
    useUp host (u :: uses) s = useUp host uses (u.perform host s) := rfl

/-- A device that is powered down stays so. -/
theorem useUp_of_released (uses : List Use) (hn : d.position = n) (hoff : d.released = true) (h : η)
    (log : List UsbEvent) : ∃ es, (∀ e ∈ es, Plain n e) ∧
      ((∀ c, .execute c ∉ uses) → es = []) ∧
      useUp host.recorded uses (d, (h, log)) =
        (useUp host uses (d, h), log ++ es ++ [.released n]) := by
  induction uses generalizing d h log with
  | nil =>
    refine ⟨[], by simp, fun _ => rfl, ?_⟩
    rw [List.append_nil, ← hn]
    exact drop_of_released host hoff h log
  | cons u uses ih =>
    rw [useUp_cons, useUp_cons]
    cases u with
    | execute c =>
      obtain ⟨d', h', es, hn', hoff', hes, hy, hx⟩ := execute_recorded host c hn hoff h log
      obtain ⟨es', hes', _, huse⟩ := ih hn' hoff' h' (log ++ es)
      refine ⟨es ++ es', ?_, fun hnone => absurd (.head _) (hnone c), ?_⟩
      · intro e he
        rcases List.mem_append.mp he with he | he
        · exact hes e he
        · exact hes' e he
      · simp only [Use.perform, hx, hy, huse, List.append_assoc]
    | shutdown =>
      obtain ⟨es, hes, hnone, huse⟩ := ih hn hoff h log
      refine ⟨es, hes, fun h => hnone fun c hc => h c (.tail _ hc), ?_⟩
      simp only [Use.perform, shutdown_of_released _ hoff, huse]
    | wait t =>
      obtain ⟨es, hes, hnone, huse⟩ := ih hn hoff (host.sleep t h) log
      exact ⟨es, hes, fun h => hnone fun c hc => h c (.tail _ hc), huse⟩
    | note m =>
      obtain ⟨es, hes, hnone, huse⟩ := ih hn hoff (host.note m h) log
      exact ⟨es, hes, fun h => hnone fun c hc => h c (.tail _ hc), huse⟩

theorem Retiring.tail {u : Use} {uses : List Use} (h : Retiring (u :: uses)) : Retiring uses := by
  intro before after c hsplit
  apply h (u :: before) after c
  rw [hsplit, List.cons_append]

theorem useUp_recorded (uses : List Use) (hn : d.position = n) (hoff : d.released = false) (h : η)
    (log : List UsbEvent) : ∃ es answer es', (∀ e ∈ es, Plain n e) ∧ (∀ e ∈ es', Plain n e) ∧
      (Retiring uses → es' = []) ∧ useUp host.recorded uses (d, (h, log)) =
        (useUp host uses (d, h), log ++ es ++ .sent n powerOff answer :: es' ++ [.released n]) := by
  induction uses generalizing d h log with
  | nil =>
    obtain ⟨es, answer, hes, hdrop⟩ := drop_recorded host hn hoff h log
    exact ⟨es, answer, [], hes, by simp, fun _ => rfl, hdrop⟩
  | cons u uses ih =>
    rw [useUp_cons, useUp_cons]
    cases u with
    | execute c =>
      obtain ⟨d', h', es, hn', hoff', hes, hy, hx⟩ := execute_recorded host c hn hoff h log
      obtain ⟨es₁, answer, es', hes₁, hes', hlast, huse⟩ := ih hn' hoff' h' (log ++ es)
      refine ⟨es ++ es₁, answer, es', ?_, hes', fun h => hlast h.tail, ?_⟩
      · intro e he
        rcases List.mem_append.mp he with he | he
        · exact hes e he
        · exact hes₁ e he
      · simp only [Use.perform, hx, hy, huse, List.append_assoc]
    | shutdown =>
      obtain ⟨d', h', es, answer, hn', hoff', hes, hy, hx⟩ := shutdown_recorded host hn hoff h log
      obtain ⟨es', hes', hnone, huse⟩ :=
        useUp_of_released host uses hn' hoff' h' (log ++ es ++ [.sent n powerOff answer])
      refine ⟨es, answer, es', hes, hes', fun h => hnone fun c => h [] uses c rfl, ?_⟩
      simp only [Use.perform, hx, hy]
      rw [huse]
      simp
    | wait t =>
      obtain ⟨es, answer, es', hes, hes', hlast, huse⟩ := ih hn hoff (host.sleep t h) log
      exact ⟨es, answer, es', hes, hes', fun h => hlast h.tail, huse⟩
    | note m =>
      obtain ⟨es, answer, es', hes, hes', hlast, huse⟩ := ih hn hoff (host.note m h) log
      exact ⟨es, answer, es', hes, hes', fun h => hlast h.tail, huse⟩

variable {c : Config}

/-- What an open device leaves on record, or one that could not be set up, from its claim on. -/
theorem start_recorded (hc : c.millivolts ≠ 0) (n : Nat) (h : η) (log : List UsbEvent) :
    (∃ d h' es, d.position = n ∧ d.released = false ∧ (∀ e ∈ es, Plain n e) ∧
        start host c n h = (.ok d, h') ∧
        start host.recorded c n (h, log) = (.ok d, (h', log ++ es))) ∨
      ∃ f h' es answer, (∀ e ∈ es, Plain n e) ∧ start host c n h = (.error f, h') ∧
        start host.recorded c n (h, log) =
          (.error f, (h', log ++ es ++ [.sent n powerOff answer] ++ [.released n])) := by
  have hb : Busy n false log ({ position := n }, (h, log ++ [])) ({ position := n }, h) :=
    .mk _ h [] rfl rfl (by simp)
  rw [List.append_nil] at hb
  have hset : Mirrors (Busy n false log) (setUp host.recorded c) (setUp host c) := setUp_busy hc
  obtain ⟨r, _, _, hx, hy, ⟨d, h', es, hn, hoff, hes⟩⟩ := hset.ends hb
  cases r with
  | ok _ =>
    refine .inl ⟨d, h', es, hn, hoff, hes, ?_, ?_⟩
    · simp only [start, hy]
    · simp only [start, hx]
  | error f =>
    obtain ⟨es', answer, hes', hdrop⟩ := drop_recorded host hn hoff h' (log ++ es)
    refine .inr ⟨f, drop host d h', es ++ es', answer, ?_, ?_, ?_⟩
    · intro e he
      rcases List.mem_append.mp he with he | he
      · exact hes e he
      · exact hes' e he
    · simp only [start, hy]
    · simp only [start, hx, hdrop, List.append_assoc]

theorem millivolts_ne_zero_of_validate (hc : c.validate = .ok ()) : c.millivolts ≠ 0 := by
  intro hzero
  simp only [Config.validate, hzero] at hc
  split at hc
  · cases hc
  · cases hc

/-- A device is either not opened, with no control request and no claim granted, or it is started
when the claim is granted. -/
theorem openDevice_recorded (c : Config) (u : UsbDevice) (h : η) (log : List UsbEvent) :
    (∃ f h' es, (∀ e ∈ es, Idle e) ∧ openDevice host c u h = (.error f, h') ∧
        openDevice host.recorded c u (h, log) = (.error f, (h', log ++ es))) ∨
      ∃ n h' es, (∀ e ∈ es, Idle e) ∧ openDevice host c u h = start host c n h' ∧
        openDevice host.recorded c u (h, log) =
          start host.recorded c n (h', log ++ es ++ [.claimed n 0 (.ok ())]) := by
  cases hopen : host.openDevice u.position (host.note (openingNotice u) h) with
  | mk opened h₁ =>
    cases opened with
    | error reason =>
      refine .inl ⟨.openFailed reason, h₁, [.opened u.position], ?_, ?_, ?_⟩
      · simp [Idle.opened]
      · simp [openDevice, Act.bind_apply, Act.mapError, hopen]
      · simp [openDevice, Act.bind_apply, Act.mapError, UsbHost.recorded, Act.recorded, hopen]
    | ok _ =>
      cases hclaim : host.claim u.position 0 h₁ with
      | mk claimed h₂ =>
        cases claimed with
        | error reason =>
          refine .inl ⟨.claimFailed reason, h₂,
            [.opened u.position, .claimed u.position 0 (.error reason)], ?_, ?_, ?_⟩
          · simp [Idle.opened, Idle.refused]
          · simp [openDevice, Act.bind_apply, Act.mapError, hopen, hclaim]
          · simp [openDevice, Act.bind_apply, Act.mapError, UsbHost.recorded, Act.recorded, hopen,
              hclaim]
        | ok _ =>
          refine .inr ⟨u.position, h₂, [.opened u.position], ?_, ?_, ?_⟩
          · simp [Idle.opened]
          · simp [openDevice, Act.bind_apply, Act.mapError, hopen, hclaim]
          · simp [openDevice, Act.bind_apply, Act.mapError, UsbHost.recorded, Act.recorded, hopen,
              hclaim]

theorem openWith_recorded (hc : c.validate = .ok ()) (h : η) (log : List UsbEvent) :
    (∃ f h' es, (∀ e ∈ es, Idle e) ∧ openWith host c h = (.error f, h') ∧
        openWith host.recorded c (h, log) = (.error f, (h', log ++ es))) ∨
      ∃ n h' es, (∀ e ∈ es, Idle e) ∧ openWith host c h = start host c n h' ∧
        openWith host.recorded c (h, log) =
          start host.recorded c n (h', log ++ es ++ [.claimed n 0 (.ok ())]) := by
  have hlisted : ∀ es : List UsbEvent, (∀ e ∈ es, Idle e) → ∀ e ∈ .listed :: es, Idle e := by
    simp [Idle.listed]
  cases hdevices : host.devices h with
  | mk listed h₁ =>
    have hplain : host.devices.mapError Fault.openFailed h = (listed.mapError .openFailed, h₁) := by
      cases listed <;> simp only [Act.mapError, hdevices] <;> rfl
    have hrecorded : host.recorded.devices.mapError Fault.openFailed (h, log) =
        (listed.mapError .openFailed, (h₁, log ++ [.listed])) := by
      cases listed <;> simp only [Act.mapError, UsbHost.recorded, Act.recorded, hdevices] <;> rfl
    have hvalid : ∀ {σ : Type} (s : σ), Act.ofExcept c.validate s = (.ok (), s) := by
      intro σ s
      rw [hc]
      rfl
    unfold openWith
    rw [Act.bind_ok (hvalid h), Act.bind_ok (hvalid (h, log))]
    cases listed with
    | error reason =>
      rw [Act.bind_error hplain, Act.bind_error hrecorded]
      exact .inl ⟨_, h₁, [.listed], hlisted [] (by simp), rfl, rfl⟩
    | ok devices =>
      rw [Act.bind_ok hplain, Act.bind_ok hrecorded]
      cases (devices.filter fun u => u.vendor == vendor && u.product == product)[c.index]? with
      | none => exact .inl ⟨_, h₁, [.listed], hlisted [] (by simp), rfl, rfl⟩
      | some u =>
        rcases openDevice_recorded host c u h₁ (log ++ [.listed]) with
          ⟨f, h', es, hes, hy, hx⟩ | ⟨n, h', es, hes, hy, hx⟩
        · refine .inl ⟨f, h', .listed :: es, hlisted es hes, hy, ?_⟩
          rw [List.append_assoc] at hx
          exact hx
        · refine .inr ⟨n, h', .listed :: es, hlisted es hes, hy, ?_⟩
          rw [List.append_assoc log] at hx
          exact hx

/-- From the granted claim on a device is powered down once, whatever the host answers and whatever
is done with the device; before, and without a claim, there are no control requests. -/
theorem start_powers_down (hc : c.millivolts ≠ 0) (uses : List Use) {n : Nat} {h h' : η}
    {log log' : List UsbEvent} (hy : openWith host c h = start host c n h')
    (hx : openWith host.recorded c (h, log) = start host.recorded c n (h', log')) :
    ∃ earlier answer later, lifetime host.recorded c uses (h, log) = (lifetime host c uses h,
        log' ++ earlier ++ .sent n powerOff answer :: later ++ [.released n]) ∧
      (∀ e ∈ earlier ++ later, Plain n e) ∧ (Retiring uses → later = []) := by
  unfold lifetime
  rw [hy, hx]
  rcases start_recorded host hc n h' log' with
    ⟨d, h'', es, hn, hoff, hes, hstart, hstart'⟩ | ⟨f, h'', es, answer, hes, hstart, hstart'⟩
  · obtain ⟨es₁, answer, later, hes₁, hlater, hlast, huse⟩ :=
      useUp_recorded host uses hn hoff h'' (log' ++ es)
    refine ⟨es ++ es₁, answer, later, ?_, ?_, hlast⟩
    · rw [hstart, hstart']
      dsimp only
      rw [huse, List.append_assoc log']
    · intro e he
      rcases List.mem_append.mp he with he | he
      · rcases List.mem_append.mp he with he | he
        · exact hes e he
        · exact hes₁ e he
      · exact hlater e he
  · refine ⟨es, answer, [], ?_, ?_, fun _ => rfl⟩
    · rw [hstart, hstart']
    · rw [List.append_nil]
      exact hes

theorem not_isPowerOff_of_idle {e : UsbEvent} (h : Idle e) : isPowerOff e = false := by
  cases h <;> rfl

theorem not_isPowerOff_of_plain {n : Nat} {e : UsbEvent} (h : Plain n e) :
    isPowerOff e = false := by
  cases h with
  | received r answer => rfl
  | sent r answer h =>
    simp only [isPowerOff, Bool.and_eq_false_imp, beq_iff_eq, beq_eq_false_iff_ne]
    exact h

theorem countP_isPowerOff {before earlier later : List UsbEvent} {n : Nat}
    (hbefore : ∀ e ∈ before, Idle e) (hplain : ∀ e ∈ earlier ++ later, Plain n e)
    (answer : Except String Unit) :
    List.countP isPowerOff (before ++ .claimed n 0 (.ok ()) ::
      (earlier ++ .sent n powerOff answer :: later ++ [.released n])) = 1 := by
  have h₀ : before.countP isPowerOff = 0 :=
    List.countP_eq_zero.mpr fun e he => by simp [not_isPowerOff_of_idle (hbefore e he)]
  have h₁ : (earlier ++ later).countP isPowerOff = 0 :=
    List.countP_eq_zero.mpr fun e he => by simp [not_isPowerOff_of_plain (hplain e he)]
  rw [List.countP_append, Nat.add_eq_zero_iff] at h₁
  simp [List.countP_append, h₀, h₁.1, h₁.2, isPowerOff, powerOff]

/-- A set-up that is not valid asks nothing of the host. Otherwise there are no control requests
before the interface of a device is claimed. From then on until it is given back there is one
request that switches the supply of the chip off, whatever the host answers, however far the
opening gets and whatever is done with the device; and if no command is run after a shutdown, it is
the last one. -/
theorem powers_down_once (host : UsbHost η) (c : Config) (uses : List Use) (h : η) :
    ∃ log, lifetime host.recorded c uses (h, []) = (lifetime host c uses h, log) ∧
      (∀ f, c.validate = .error f → log = []) ∧
      ((∀ e ∈ log, Idle e) ∨ ∃ before n earlier answer later,
        log = before ++ .claimed n 0 (.ok ()) ::
          (earlier ++ .sent n powerOff answer :: later ++ [.released n]) ∧
        (∀ e ∈ before, Idle e) ∧ (∀ e ∈ earlier ++ later, Plain n e) ∧
        log.countP isPowerOff = 1 ∧ (Retiring uses → later = [])) := by
  cases hc : c.validate with
  | error f =>
    have hrefused : ∀ {η : Type} (host : UsbHost η) (h : η), openWith host c h = (.error f, h) := by
      intro η host h
      unfold openWith
      rw [hc]
      rfl
    refine ⟨[], ?_, fun _ _ => rfl, .inl (by simp)⟩
    simp only [lifetime, hrefused]
  | ok _ =>
    rcases openWith_recorded host hc h [] with ⟨f, h', es, hes, hy, hx⟩ | ⟨n, h', es, hes, hy, hx⟩
    · refine ⟨es, ?_, fun _ h => (nomatch h), .inl hes⟩
      simp only [lifetime, hy, hx, List.nil_append]
    · obtain ⟨earlier, answer, later, hlife, hplain, hlast⟩ :=
        start_powers_down host (millivolts_ne_zero_of_validate hc) uses hy hx
      have hlog : [] ++ es ++ [.claimed n 0 (.ok ())] ++ earlier ++
          .sent n powerOff answer :: later ++ [.released n] = es ++ .claimed n 0 (.ok ()) ::
            (earlier ++ .sent n powerOff answer :: later ++ [.released n]) := by
        simp
      rw [hlog] at hlife
      exact ⟨_, hlife, fun _ h => (nomatch h), .inr ⟨es, n, earlier, answer, later, rfl, hes, hplain,
        countP_isPowerOff hes hplain answer, hlast⟩⟩

/-- A host with one device that can be claimed but answers no control request. -/
def mute : UsbHost Unit where
  devices := Act.ofExcept (.ok [⟨0, vendor, product, "1", 4⟩])
  openDevice _ := Act.ofExcept (.ok ())
  claim _ _ := Act.ofExcept (.ok ())
  receive _ _ := Act.fail "timed out"
  send _ _ := Act.fail "timed out"
  release _ h := h
  sleep _ h := h
  note _ h := h

/-- A device that answers nothing is powered down all the same, and nothing is asked after that. -/
theorem powers_down_once_mute : ∃ n before earlier answer,
    (lifetime mute.recorded {} [.shutdown] ((), [])).2 = before ++ .claimed n 0 (.ok ()) ::
      (earlier ++ [.sent n powerOff answer, .released n]) := by
  obtain ⟨log, hlife, _, hidle | ⟨before, n, earlier, answer, later, hlog, _, _, _, hlast⟩⟩ :=
    powers_down_once mute {} [.shutdown] ()
  · have hoff : (lifetime mute.recorded {} [.shutdown] ((), [])).2.countP isPowerOff = 1 := by
      decide
    rw [hlife, List.countP_eq_zero.mpr fun e he => by simp [not_isPowerOff_of_idle (hidle e he)]]
      at hoff
    cases hoff
  · have hretiring : Retiring [.shutdown] := by
      intro before after c hsplit hmem
      cases before with
      | nil =>
        cases hsplit
        cases hmem
      | cons u before => simp at hsplit
    refine ⟨n, before, earlier, answer, ?_⟩
    rw [hlife, hlog, hlast hretiring]
    simp

end Dediprog
end NorFlash
