import Netlist.Proofs.SortedMap
import Netlist.Session

/-!
# The order of calls

A circuit answers a call out of what it holds for the target of the call: the device of a name, the
driver of an input, the monitor of an output. Every call first asks whether it may be carried out,
and then edits the place of its target alone (`Circuit.Gated`). So calls for different targets do
not see each other. They are answered as if each were the first one, and leave the same circuit
behind in any order, although an output and an input may belong to one device.

## Results

* `Circuit.gated_declare`, `Circuit.gated_connect`, `Circuit.gated_monitor`: what each operation
  asks, and that it edits the place of its target alone.
* `callAll_fst`: calls that are independent are answered as if each were the first one.
* `callAll_perm`: they have the same answers, and leave the same behind, in any order.
* `Session.orderFree_calls`: **calls for different targets can be made in any order.**
-/

namespace Netlist

/-! ## Calls one after the other -/

section Calls

variable {σ α β : Type} {call : σ → α → β × σ}

/-- Makes calls in order: every call with its answer, and the state behind them. -/
def callAll (call : σ → α → β × σ) (s : σ) : List α → List (α × β) × σ
  | [] => ([], s)
  | a :: as =>
    let (answer, s) := call s a
    let (answers, s) := callAll call s as
    ((a, answer) :: answers, s)

@[simp] theorem callAll_nil (s : σ) : callAll call s [] = ([], s) := rfl

theorem callAll_cons (s : σ) (a : α) (as : List α) :
    callAll call s (a :: as) =
      ((a, (call s a).1) :: (callAll call (call s a).2 as).1, (callAll call (call s a).2 as).2) :=
  rfl

/-- The targets of the calls that were accepted. -/
def accepted {ε κ : Type} (target : α → κ) (answers : List (α × Except ε Unit)) : List κ :=
  (answers.filter fun answer => answer.2.isOk).map fun answer => target answer.1

/-- Neither of two calls sees whether the other one was made before, and they leave the same state
behind in either order. -/
structure Independent (call : σ → α → β × σ) (a b : α) : Prop where
  left : ∀ s, (call (call s b).2 a).1 = (call s a).1
  right : ∀ s, (call (call s a).2 b).1 = (call s b).1
  state : ∀ s, (call (call s a).2 b).2 = (call (call s b).2 a).2

theorem Independent.symm {a b : α} (h : Independent call a b) : Independent call b a :=
  ⟨h.right, h.left, fun s => (h.state s).symm⟩

/-- **Independent calls are answered as if each were the first one.** -/
theorem callAll_fst {as : List α} (h : as.Pairwise (Independent call)) (s : σ) :
    (callAll call s as).1 = as.map fun a => (a, (call s a).1) := by
  induction as generalizing s with
  | nil => rfl
  | cons a as ih =>
    obtain ⟨ha, has⟩ := List.pairwise_cons.mp h
    rw [callAll_cons, ih has, List.map_cons]
    have hnot : ∀ b ∈ as, (b, (call (call s a).2 b).1) = (b, (call s b).1) := by
      intro b hb
      rw [(ha b hb).right]
    rw [List.map_congr_left hnot]

/-- Independent calls leave the same state behind in any order. -/
theorem callAll_snd {as bs : List α} (hperm : as.Perm bs) (h : as.Pairwise (Independent call))
    (s : σ) : (callAll call s as).2 = (callAll call s bs).2 := by
  induction hperm generalizing s with
  | nil => rfl
  | cons a _ ih =>
    rw [callAll_cons, callAll_cons]
    exact ih (List.pairwise_cons.mp h).2 _
  | swap a b as =>
    have hba := (List.pairwise_cons.mp h).1 a List.mem_cons_self
    simp only [callAll_cons]
    rw [hba.state]
  | trans hperm _ ih ih' =>
    rw [ih h]
    exact ih' ((hperm.pairwise_iff Independent.symm).mp h) s

/-- **Independent calls have the same answers, and leave the same behind, in any order.** -/
theorem callAll_perm {as bs : List α} (hperm : as.Perm bs) (h : as.Pairwise (Independent call))
    (s : σ) : (callAll call s as).1.Perm (callAll call s bs).1 ∧
      (callAll call s as).2 = (callAll call s bs).2 := by
  refine ⟨?_, callAll_snd hperm h s⟩
  rw [callAll_fst h, callAll_fst ((hperm.pairwise_iff Independent.symm).mp h)]
  exact hperm.map _

end Calls

/-! ## What an operation asks and edits -/

/-- Drivers at different pins can be set in any order. -/
theorem Device.drive_comm (d : Device) {pin pin' : NameId} (h : pin ≠ pin') (o o' : Output) :
    (d.drive pin o).drive pin' o' = (d.drive pin' o').drive pin o := by
  unfold drive
  rw [SortedMap.modify_comm _ fun he => absurd he h]

namespace Circuit

/-- An operation asks whether it may be carried out, and edits the place of its target alone. Then
it may not be carried out for this target again. -/
structure Gated {α δ ε κ : Type} (operate : Circuit → α → Except ε Circuit)
    (may : Circuit → α → Except ε δ) (edit : Circuit → α → δ → Circuit) (target : α → κ) :
    Prop where
  eq : ∀ c a, operate c a = (may c a).map (edit c a)
  may_edit : ∀ {a b}, target a ≠ target b → ∀ c x, may (edit c a x) b = may c b
  edit_comm : ∀ {a b}, target a ≠ target b → ∀ c x y,
    edit (edit c a x) b y = edit (edit c b y) a x
  shut : ∀ {c a b x}, may c a = .ok x → target b = target a → ∀ y, may (edit c a x) b ≠ .ok y

/-! ## Declarations -/

/-- Whether a device may be declared, and its setting. -/
def mayDeclare (c : Circuit) (call : NameId × DeviceKind × Option Qualifier) :
    Except DeclareError Setting :=
  if c.devices.contains call.1 then .error .nameAlreadyUsed
  else
    match call.2.1.settingFor call.2.2 with
    | none => .error .invalidQualifier
    | some setting => .ok setting

/-- The circuit with a device. -/
def put (c : Circuit) (call : NameId × DeviceKind × Option Qualifier) (setting : Setting) :
    Circuit :=
  { c with devices := c.devices.insert call.1 (Device.make c.pins call.1 call.2.1 setting) }

theorem gated_declare :
    Gated (fun c call => c.declare call.1 call.2.1 call.2.2) mayDeclare put Prod.fst where
  eq c call := by
    unfold declare mayDeclare
    split
    · rfl
    · cases call.2.1.settingFor call.2.2 <;> rfl
  may_edit hne c x := by
    simp [mayDeclare, put, SortedMap.contains_insert, hne.symm]
  edit_comm hne c x y := by
    unfold put
    rw [SortedMap.insert_comm _ hne]
  shut _ heq y := by
    simp [mayDeclare, put, SortedMap.contains_insert, heq]

/-! ## Connections -/

/-- Whether a device has an output, if it is declared. -/
def offers? (c : Circuit) (o : Output) : Option Bool :=
  (c.device? o.device).map fun d => d.hasOutput o.pin

/-- What drives an input of a device, if the device is declared and has the input. -/
def driverAt? (c : Circuit) (i : Input) : Option (Option (Option Output)) :=
  (c.device? i.device).map fun d => d.inputs.get? i.pin

/-- Whether an output may be connected to an input. -/
def mayConnect (c : Circuit) (call : Output × Input) : Except ConnectError Unit :=
  match c.offers? call.1, c.driverAt? call.2 with
  | none, _ => .error .deviceAbsent
  | some false, _ => .error .outputPinAbsent
  | some true, none => .error .deviceAbsent
  | some true, some none => .error .inputPinAbsent
  | some true, some (some (some _)) => .error .inputAlreadyConnected
  | some true, some (some none) => .ok ()

/-- The circuit with a connection. -/
def wire (c : Circuit) (call : Output × Input) : Circuit :=
  { c with
    devices := c.devices.modify call.2.device fun d => d.drive call.2.pin call.1
    connections := c.connections + 1 }

theorem connect_eq (c : Circuit) (call : Output × Input) :
    c.connect call.1 call.2 = (c.mayConnect call).map fun _ => c.wire call := by
  unfold connect mayConnect offers? driverAt?
  cases c.device? call.1.device with
  | none => rfl
  | some driver =>
    simp only [Option.map_some]
    cases driver.hasOutput call.1.pin with
    | false => rfl
    | true =>
      cases c.device? call.2.device with
      | none => rfl
      | some driven =>
        simp only [Option.map_some]
        rcases driven.inputs.get? call.2.pin with _ | _ | _ <;> rfl

theorem device?_wire (c : Circuit) (call : Output × Input) (id : NameId) :
    (c.wire call).device? id =
      if id = call.2.device then (c.device? id).map fun d => d.drive call.2.pin call.1
      else c.device? id :=
  SortedMap.get?_modify _ _ _ _

/-- A connection changes no outputs, of the driven device neither. -/
theorem offers?_wire (c : Circuit) (call : Output × Input) (o : Output) :
    (c.wire call).offers? o = c.offers? o := by
  unfold offers?
  rw [device?_wire]
  split
  · rw [Option.map_map]
    rfl
  · rfl

/-- A connection changes the driver at its input alone. -/
theorem driverAt?_wire (c : Circuit) (call : Output × Input) (i : Input) :
    (c.wire call).driverAt? i =
      if i = call.2 then (c.driverAt? i).map fun slot => slot.map fun _ => some call.1
      else c.driverAt? i := by
  unfold driverAt?
  rw [device?_wire]
  obtain ⟨id, pin⟩ := i
  obtain ⟨o, ⟨id', pin'⟩⟩ := call
  by_cases hid : id = id'
  · by_cases hpin : pin = pin'
    · simp [hid, hpin, Option.map_map, Function.comp_def, Device.drive, SortedMap.get?_modify]
    · simp [hid, hpin, Option.map_map, Function.comp_def, Device.drive, SortedMap.get?_modify]
  · simp [hid]

theorem wire_comm (c : Circuit) {a b : Output × Input} (h : a.2 ≠ b.2) :
    (c.wire a).wire b = (c.wire b).wire a := by
  unfold wire
  rw [SortedMap.modify_comm]
  intro hid d
  refine d.drive_comm ?_ _ _
  intro hpin
  have hsink : a.2 = b.2 := by
    rw [show a.2 = ⟨a.2.device, a.2.pin⟩ from rfl, hid, ← hpin]
  exact h hsink

theorem gated_connect :
    Gated (fun c call => c.connect call.1 call.2) mayConnect (fun c call _ => c.wire call)
      Prod.snd where
  eq := connect_eq
  may_edit {a b} hne c _ := by
    unfold mayConnect
    rw [offers?_wire, driverAt?_wire, if_neg hne.symm]
  edit_comm hne c _ _ := wire_comm c hne
  shut {c a b x} h heq y := by
    have hfree : c.driverAt? a.2 = some (some none) := by
      unfold mayConnect at h
      split at h <;> first | assumption | cases h
    have hdriven : (c.wire a).driverAt? b.2 = some (some (some a.1)) := by
      rw [driverAt?_wire, if_pos heq, heq, hfree]
      rfl
    unfold mayConnect
    rw [hdriven]
    rcases (c.wire a).offers? b.1 with _ | _ | _ <;> simp

/-! ## Monitors -/

/-- Whether an output may be monitored. -/
def mayMonitor (c : Circuit) (o : Output) : Except MonitorError Unit :=
  match c.offers? o with
  | some true => if c.monitors.contains o then .error .alreadyMonitored else .ok ()
  | _ => .error .pinNotAnOutput

/-- The circuit with a monitor. -/
def probe (c : Circuit) (o : Output) : Circuit := { c with monitors := c.monitors.add o }

theorem gated_monitor : Gated monitor mayMonitor (fun c o _ => c.probe o) id where
  eq c o := by
    unfold monitor mayMonitor offers?
    cases c.device? o.device with
    | none => rfl
    | some device =>
      simp only [Option.map_some]
      cases device.hasOutput o.pin with
      | false => rfl
      | true => cases c.monitors.contains o <;> rfl
  may_edit {a b} hne c _ := by
    have hne : b ≠ a := hne.symm
    have hkept : (c.probe a).monitors.contains b = c.monitors.contains b := by
      simp [probe, SortedSet.add, SortedMap.contains_insert, hne]
    unfold mayMonitor
    rw [hkept]
    rfl
  edit_comm {a b} hne c _ _ := by
    have hne : a ≠ b := hne
    unfold probe SortedSet.add
    rw [SortedMap.insert_comm _ hne]
  shut {c a b x} _ heq y := by
    have heq : b = a := heq
    have hused : (c.probe a).monitors.contains b = true := by
      simp [probe, SortedSet.add, SortedMap.contains_insert, heq]
    unfold mayMonitor
    rw [hused]
    split <;> simp

end Circuit

/-! ## Calls on a session -/

namespace Circuit.Gated

variable {α δ ε κ : Type} {operate : Circuit → α → Except ε Circuit}
  {may : Circuit → α → Except ε δ} {edit : Circuit → α → δ → Circuit} {target : α → κ}
  {s : Session} {a b : α}

theorem settle_of_error (h : Gated operate may edit target) {e : ε}
    (he : may s.circuit a = .error e) : s.settle (operate s.circuit a) = (.error e, s) := by
  rw [h.eq, he]
  rfl

theorem settle_of_ok (h : Gated operate may edit target) {x : δ} (hx : may s.circuit a = .ok x) :
    s.settle (operate s.circuit a) = (.ok (), { s with circuit := edit s.circuit a x }) := by
  rw [h.eq, hx]
  rfl

theorem settle_fst (h : Gated operate may edit target) :
    (s.settle (operate s.circuit a)).1 = (may s.circuit a).map fun _ => () := by
  cases hm : may s.circuit a with
  | error e => rw [h.settle_of_error hm]; rfl
  | ok x => rw [h.settle_of_ok hm]; rfl

/-- What may be done for a target is the same behind a call for another one. -/
theorem may_settle (h : Gated operate may edit target) (hne : target a ≠ target b) :
    may (s.settle (operate s.circuit a)).2.circuit b = may s.circuit b := by
  cases hm : may s.circuit a with
  | error e => rw [h.settle_of_error hm]
  | ok x =>
    rw [h.settle_of_ok hm]
    exact h.may_edit hne _ _

/-- **Calls for different targets are independent.** -/
theorem independent (h : Gated operate may edit target) (hne : target a ≠ target b) :
    Independent (fun (s : Session) a => s.settle (operate s.circuit a)) a b where
  left s := by rw [h.settle_fst, h.settle_fst, h.may_settle hne.symm]
  right s := by rw [h.settle_fst, h.settle_fst, h.may_settle hne]
  state s := by
    have ha := h.may_settle (s := s) hne.symm
    have hb := h.may_settle (s := s) hne
    cases hma : may s.circuit a with
    | error e =>
      rw [hma] at ha
      rw [h.settle_of_error hma, h.settle_of_error ha]
    | ok x =>
      rw [hma] at ha
      cases hmb : may s.circuit b with
      | error e =>
        rw [hmb] at hb
        rw [h.settle_of_error hmb, h.settle_of_error hb]
      | ok y =>
        rw [hmb] at hb
        rw [h.settle_of_ok ha, h.settle_of_ok hb, h.settle_of_ok hma, h.settle_of_ok hmb]
        simp only [h.edit_comm hne]

/-- A target for which nothing may be done is not accepted later on. -/
theorem not_mem_accepted (h : Gated operate may edit target) {k : κ} {as : List α}
    (hshut : ∀ b, target b = k → ∀ y, may s.circuit b ≠ .ok y) :
    k ∉ accepted target (callAll (fun s a => s.settle (operate s.circuit a)) s as).1 := by
  induction as generalizing s with
  | nil => simp [accepted]
  | cons a as ih =>
    rw [callAll_cons]
    cases hm : may s.circuit a with
    | error e =>
      rw [h.settle_of_error hm]
      exact ih hshut
    | ok x =>
      have hne : target a ≠ k := fun hk => hshut a hk x hm
      have hlater := ih (s := (s.settle (operate s.circuit a)).2) fun b hb => by
        rw [h.may_settle (hb.symm ▸ hne)]
        exact hshut b hb
      rw [h.settle_of_ok hm] at hlater ⊢
      simp only [accepted, List.filter_cons, Except.isOk, Except.toBool, if_true, List.map_cons,
        List.mem_cons, not_or]
      exact ⟨hne.symm, hlater⟩

/-- **No target is accepted twice.** -/
theorem nodup_accepted (h : Gated operate may edit target) (s : Session) (as : List α) :
    (accepted target (callAll (fun s a => s.settle (operate s.circuit a)) s as).1).Nodup := by
  induction as generalizing s with
  | nil => exact List.nodup_nil
  | cons a as ih =>
    rw [callAll_cons]
    cases hm : may s.circuit a with
    | error e =>
      rw [h.settle_of_error hm]
      exact ih s
    | ok x =>
      rw [h.settle_of_ok hm]
      refine List.nodup_cons.mpr ⟨h.not_mem_accepted ?_, ih _⟩
      intro b hb y
      exact h.shut hm hb y

end Circuit.Gated

namespace Session

/-- What calls of one kind have to do with each other in a session. -/
structure OrderFree {α ε κ : Type} (call : Session → α → Except ε Unit × Session)
    (target : α → κ) (s : Session) : Prop where
  /-- Calls for different targets are answered as if each were the first one. -/
  alone : ∀ calls : List α, (calls.map target).Nodup →
    (callAll call s calls).1 = calls.map fun a => (a, (call s a).1)
  /-- In any order every call has the same answer, and they leave the same session behind. -/
  permuted : ∀ calls calls' : List α, (calls.map target).Nodup → calls.Perm calls' →
    (callAll call s calls).1.Perm (callAll call s calls').1 ∧
      (callAll call s calls).2 = (callAll call s calls').2
  /-- Of calls for one target, at most one is accepted, whatever is called in between. -/
  once : ∀ calls : List α, (accepted target (callAll call s calls).1).Nodup

theorem orderFree_of_gated {α δ ε κ : Type} {operate : Circuit → α → Except ε Circuit}
    {may : Circuit → α → Except ε δ} {edit : Circuit → α → δ → Circuit} {target : α → κ}
    (h : Circuit.Gated operate may edit target) (s : Session) :
    OrderFree (fun s a => s.settle (operate s.circuit a)) target s := by
  have hindependent {calls : List α} (hnodup : (calls.map target).Nodup) :
      calls.Pairwise (Independent fun (s : Session) a => s.settle (operate s.circuit a)) :=
    (List.pairwise_map.mp hnodup).imp h.independent
  exact {
    alone := fun calls hnodup => callAll_fst (hindependent hnodup) s
    permuted := fun calls calls' hnodup hperm => callAll_perm hperm (hindependent hnodup) s
    once := h.nodup_accepted s }

/-- **Calls for different targets can be made in any order.** In any session, reached by commands
or not, that holds of connections to different inputs, of declarations of different names and of
monitors at different outputs, whatever else the calls are about and whichever of them are refused;
and of calls for the same target at most one is accepted. -/
theorem orderFree_calls (s : Session) :
    s.OrderFree (fun s (call : Output × Input) => s.connect call.1 call.2) Prod.snd ∧
      s.OrderFree (fun s (call : NameId × DeviceKind × Option Qualifier) =>
        s.declare call.1 call.2.1 call.2.2) Prod.fst ∧
      s.OrderFree Session.monitor id :=
  ⟨orderFree_of_gated Circuit.gated_connect s, orderFree_of_gated Circuit.gated_declare s,
    orderFree_of_gated Circuit.gated_monitor s⟩

end Session

end Netlist
