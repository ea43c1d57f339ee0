import ScosSensor.Raising
import Mathlib.Data.List.Infix

/-!
# The start of the process

The first application loads the actions, the definition of the sensor, the switches,
the preselector and the sensor with its signal analyzer, and then the calibrations.
What it calls for that answers or raises. What is wrong ends in a sensor that is not
loaded, or in the mark of an unhealthy container; the start itself raises only when its
handler cannot write that mark.
-/
namespace ScosSensor.Initialization

open Raising

/-- What the `except` clauses tell apart: the exception of a component that cannot be
configured, another `Exception`, and a `BaseException` that is none. -/
inductive Raised where
  | configuration
  | exception
  | exit
  deriving Repr, DecidableEq

abbrev Outcome := Except Raised

/-- The components that are registered for the status. -/
inductive Component where
  | switch (id : String)
  | preselector
  | signalAnalyzer
  deriving Repr, DecidableEq

inductive CalType where
  | sensor
  | differential
  deriving Repr, DecidableEq

/-- The places where `set_container_unhealthy` is called. -/
inductive MarkSite where
  | noDevice
  | noSigan
  | notHealthy
  | handler
  deriving Repr, DecidableEq

/-- The settings that the start reads. Without its file `SENSOR_DEFINITION_FILE` is not
defined. -/
structure StartSettings where
  inDocker : Bool := true
  runningMigrations : Bool := false
  runningTests : Bool := false
  mockSigan : Bool := false
  rayInit : Bool := false
  usbDevice : Option (List Char) := none
  siganModule : Option String := none
  siganClass : Option String := none
  preselectorModule : Option String := none
  preselectorClass : Option String := none
  gpsModule : Option String := none
  gpsClass : Option String := none
  sensorDefinitionFile : Option String := none
  onboardCalibrationFile : Option String := none
  sensorCalibrationFile : Option String := none
  differentialCalibrationFile : Option String := none
  deriving Repr, DecidableEq

/-- A file in the directory of the switches: reading it, and the switch that it defines. -/
structure SwitchFile where
  json : Outcome Unit
  relay : Outcome String

/-- What the start calls. The definition of the sensor may have a location, which is made
into a point, and a calibration file may be missing. A start that has marked its container
sleeps. -/
structure Calls (Point Cal : Type) where
  loadActions : Outcome Unit
  sensorDefinition : String → Outcome (Option (Outcome Point))
  switchFiles : Outcome (List SwitchFile)
  makePreselector : Outcome Unit
  lsusb : Outcome (List Char)
  lsusbAgain : Outcome (List Char)
  makeSigan : Outcome Unit
  makeGps : Outcome Unit
  makeSensor : Outcome Unit
  siganHealthy : Outcome Bool
  powerCycleSigan : Outcome Unit
  touch : MarkSite → Outcome Unit
  sleep : MarkSite → Outcome Unit
  calibration : CalType → String → Option (Outcome Cal)
  importRay : Outcome Unit
  initRay : Outcome Unit
  hasStatus : Component → Bool

/-- The sensor that the loader makes. -/
structure StartedSensor (Point Cal : Type) where
  signalAnalyzer : Bool
  gps : Bool
  location : Option Point
  sensorCalibration : Option Cal := none
  differentialCalibration : Option Cal := none
  deriving Repr, DecidableEq

/-- What the start leaves: the mark of the container, the components of the status
monitor, and the sensor of the loader. -/
structure Boot (Point Cal : Type) where
  marked : Bool := false
  components : List Component := []
  sensor : Option (StartedSensor Point Cal) := none
  deriving Repr, DecidableEq

variable {Point Cal : Type}

abbrev Start (Point Cal : Type) := Program Raised (Boot Point Cal)

/-- `except Exception`. -/
def exceptException {α : Type} (x : Start Point Cal α) (instead : α) : Start Point Cal α :=
  tryCatch x fun err => if err = .exit then throw err else pure instead

def setContainerUnhealthy (cfg : StartSettings) (c : Calls Point Cal) (site : MarkSite) :
    Start Point Cal Unit :=
  if cfg.inDocker then do
    call (c.touch site)
    modify fun s => { s with marked := true }
  else pure ()

/-- `StatusMonitor.add_component`, which is called through a signal that raises nothing. -/
def addComponent (c : Calls Point Cal) (component : Component) : Start Point Cal Unit :=
  modify fun s =>
    if c.hasStatus component then { s with components := s.components ++ [component] } else s

def getUsbDeviceExists (cfg : StartSettings) (lsusb : Outcome (List Char)) : Outcome Bool :=
  match cfg.usbDevice with
  | none => .ok true
  | some device =>
    if cfg.mockSigan then .ok true else lsusb.map fun usbDevices => decide (device <:+: usbDevices)

/-- For a file that cannot be read an empty definition is used, which has no location. The
setting of a file that is not there is not defined, which raises before the `try`. -/
def loadCapabilities (cfg : StartSettings) (c : Calls Point Cal) :
    Start Point Cal (Option (Outcome Point)) :=
  match cfg.sensorDefinitionFile with
  | none => throw .exception
  | some path => exceptException (call (c.sensorDefinition path)) none

def loadSwitch (c : Calls Point Cal) (file : SwitchFile) : Start Point Cal Unit := do
  call file.json
  tryCatch (do
    let id ← call file.relay
    addComponent c (.switch id))
    fun err => if err = .configuration then pure () else throw err

def loadSwitches (c : Calls Point Cal) : Start Point Cal Unit :=
  exceptException (do
    let files ← call c.switchFiles
    files.forM (loadSwitch c)) ()

/-- `module is not None and preselector_class_name is not None`. -/
def hasPreselector (cfg : StartSettings) : Bool :=
  cfg.preselectorModule.isSome && cfg.preselectorClass.isSome

def loadPreselector (cfg : StartSettings) (c : Calls Point Cal) : Start Point Cal Unit :=
  if hasPreselector cfg then do
    call c.makePreselector
    addComponent c .preselector
  else pure ()

def checkForRequiredSiganSettings (cfg : StartSettings) : Outcome Unit :=
  if cfg.siganModule.isNone || cfg.siganClass.isNone then .error .exception else .ok ()

/-- The signal analyzer in `load_sensor`. -/
def loadSigan (cfg : StartSettings) (c : Calls Point Cal) : Start Point Cal Bool :=
  if cfg.runningMigrations then pure false
  else tryCatch (do
    let found ← call (getUsbDeviceExists cfg c.lsusbAgain)
    if found then
      call (checkForRequiredSiganSettings cfg)
      call c.makeSigan
      addComponent c .signalAnalyzer
    return found)
    fun _ => do
      setContainerUnhealthy cfg c .noSigan
      return false

/-- A text that is set and not empty. -/
def isGiven (text : Option String) : Bool := text.any fun t => t ≠ ""

/-- The receiver in `load_sensor`, which may be missing. -/
def loadGps (cfg : StartSettings) (c : Calls Point Cal) : Bool :=
  isGiven cfg.gpsModule && isGiven cfg.gpsClass && c.makeGps.isOk

/-- The location that the definition of the sensor has. -/
def loadLocation (cfg : StartSettings) (definition : Option (Outcome Point)) :
    Outcome (Option Point) :=
  match definition with
  | none => .ok none
  | some point => if cfg.runningTests then .ok none else point.map some

def loadSensor (cfg : StartSettings) (c : Calls Point Cal) (definition : Option (Outcome Point)) :
    Start Point Cal (StartedSensor Point Cal) := do
  let location ← call (loadLocation cfg definition)
  let signalAnalyzer ← loadSigan cfg c
  call c.makeSensor
  return { signalAnalyzer, gps := loadGps cfg c, location }

/-- `get_calibration`, whose `finally` returns whatever was raised. -/
def getCalibration (c : Calls Point Cal) (file : Option String) (calType : CalType) : Option Cal :=
  match file.filter fun path => path ≠ "" with
  | none => none
  | some path =>
    match c.calibration calType path with
    | some (.ok cal) => some cal
    | _ => none

/-- The calibrations of the sensor: the onboard file comes before the sensor file. -/
def calibrate (cfg : StartSettings) (c : Calls Point Cal) (sensor : StartedSensor Point Cal) :
    StartedSensor Point Cal :=
  { sensor with
    sensorCalibration := ((getCalibration c cfg.onboardCalibrationFile .sensor).or
      (getCalibration c cfg.sensorCalibrationFile .sensor)).or sensor.sensorCalibration
    differentialCalibration := getCalibration c cfg.differentialCalibrationFile .differential }

/-- A signal analyzer that is not there or not healthy is power cycled. Without a loader
the access to its sensor raises. -/
def checkSigan (cfg : StartSettings) (c : Calls Point Cal) : Start Point Cal Unit := do
  match (← get).sensor with
  | none => throw .exception
  | some sensor =>
    let healthy ← if sensor.signalAnalyzer then call c.siganHealthy else pure false
    if !healthy then
      exceptException (call c.powerCycleSigan) ()
      setContainerUnhealthy cfg c .notHealthy
      call (c.sleep .notHealthy)

/-- The sensor is loaded when its device is there. -/
def loadPresentSensor (cfg : StartSettings) (c : Calls Point Cal)
    (definition : Option (Outcome Point)) : Start Point Cal Unit := do
  let found ← call (getUsbDeviceExists cfg c.lsusb)
  if found then
    let sensor ← loadSensor cfg c definition
    modify fun s => { s with sensor := some sensor }
  else
    exceptException (call c.powerCycleSigan) ()
    setContainerUnhealthy cfg c .noDevice
    call (c.sleep .noDevice)

/-- The first half of the `try` block. -/
def loadDevices (cfg : StartSettings) (c : Calls Point Cal) : Start Point Cal Unit := do
  call c.loadActions
  let definition ← loadCapabilities cfg c
  loadSwitches c
  loadPreselector cfg c
  loadPresentSensor cfg c definition

def loadCalibrations (cfg : StartSettings) (c : Calls Point Cal) : Start Point Cal Unit :=
  if cfg.runningTests then pure ()
  else modify fun s => { s with sensor := s.sensor.map (calibrate cfg c) }

def startRay (cfg : StartSettings) (c : Calls Point Cal) : Start Point Cal Unit := do
  call c.importRay
  if cfg.rayInit then call c.initRay

/-- The second half, which is left out while migrations run. -/
def checkDevices (cfg : StartSettings) (c : Calls Point Cal) : Start Point Cal Unit := do
  checkSigan cfg c
  loadCalibrations cfg c
  startRay cfg c

/-- The `try` block of the application, and its handler. -/
def start (cfg : StartSettings) (c : Calls Point Cal) : Start Point Cal Unit :=
  tryCatch (do
    loadDevices cfg c
    if !cfg.runningMigrations then checkDevices cfg c)
    fun _ => setContainerUnhealthy cfg c .handler

/-! ### What the parts leave -/

/-- The definition of the sensor, or the empty one. -/
def usedDefinition (cfg : StartSettings) (c : Calls Point Cal) : Option (Outcome Point) :=
  cfg.sensorDefinitionFile.bind fun path => (c.sensorDefinition path).toOption.getD none

/-- What reading a file of the switches raises. -/
def SwitchFile.failure (file : SwitchFile) : Option Raised :=
  match file.json with
  | .error err => some err
  | .ok _ =>
    match file.relay with
    | .error .configuration => none
    | .error err => some err
    | .ok _ => none

/-- The first failure among the switches, after which no file is read. -/
def switchFailure (c : Calls Point Cal) : Option Raised :=
  match c.switchFiles with
  | .error err => some err
  | .ok files => files.findSome? SwitchFile.failure

/-- The switches of the files before the first failure. -/
def switches (files : List SwitchFile) : List Component :=
  (files.takeWhile fun file => file.failure.isNone).filterMap fun file =>
    file.relay.toOption.map Component.switch

/-- The switches that are made. -/
def madeSwitches (c : Calls Point Cal) : List Component :=
  switches (c.switchFiles.toOption.getD [])

/-- The preselector, if one is configured. -/
def madePreselector (cfg : StartSettings) : List Component :=
  if hasPreselector cfg then [.preselector] else []

/-- Whether a signal analyzer is made, and what that raises. -/
def siganOutcome (cfg : StartSettings) (c : Calls Point Cal) : Outcome Bool :=
  if cfg.runningMigrations then .ok false
  else (getUsbDeviceExists cfg c.lsusbAgain).bind fun found =>
    if found then (checkForRequiredSiganSettings cfg).bind fun _ => c.makeSigan.map fun _ => true
    else .ok false

/-- The sensor gets a signal analyzer. -/
def hasSigan (cfg : StartSettings) (c : Calls Point Cal) : Bool :=
  (siganOutcome cfg c).toOption.getD false

/-- The signal analyzer, if one is made. -/
def madeSigan (cfg : StartSettings) (c : Calls Point Cal) : List Component :=
  if hasSigan cfg c then [.signalAnalyzer] else []

/-- What a call of `set_container_unhealthy` raises. -/
def marking (cfg : StartSettings) (c : Calls Point Cal) (site : MarkSite) : Outcome Unit :=
  if cfg.inDocker then c.touch site else .ok ()

/-- The components are registered, as far as they have a status. -/
def Boot.register (c : Calls Point Cal) (components : List Component) (s : Boot Point Cal) :
    Boot Point Cal :=
  { s with components := s.components ++ components.filter c.hasStatus }

section Parts

variable {cfg : StartSettings} {c : Calls Point Cal} {s : Boot Point Cal}
  {E : Raised → Boot Point Cal → Prop}

@[simp] theorem register_nil : s.register c [] = s := by
  simp [Boot.register]

theorem register_append (xs ys : List Component) :
    s.register c (xs ++ ys) = (s.register c xs).register c ys := by
  simp [Boot.register]

@[simp] theorem register_marked (xs : List Component) : (s.register c xs).marked = s.marked := rfl

@[simp] theorem register_sensor (xs : List Component) : (s.register c xs).sensor = s.sensor := rfl

theorem ends_addComponent {Q : Unit → Boot Point Cal → Prop} (component : Component) :
    Ends (addComponent c component) s Q E ↔ Q () (s.register c [component]) := by
  rw [addComponent, ends_modify]
  cases h : c.hasStatus component <;> simp [Boot.register, h]

theorem ends_setContainerUnhealthy {Q : Unit → Boot Point Cal → Prop} {site : MarkSite} :
    Ends (setContainerUnhealthy cfg c site) s Q E ↔
      (marking cfg c site = .ok () → Q () { s with marked := s.marked || cfg.inDocker }) ∧
        ∀ err, marking cfg c site = .error err → E err s := by
  unfold setContainerUnhealthy marking
  cases cfg.inDocker with
  | false => simp
  | true => cases c.touch site <;> simp

theorem ends_exceptException {α : Type} {x : Start Point Cal α} {instead : α}
    {Q : α → Boot Point Cal → Prop} : Ends (exceptException x instead) s Q E ↔
      Ends x s Q fun err t => if err = .exit then E err t else Q instead t := by
  rw [exceptException, ends_tryCatch]
  refine iff_of_eq (congrArg _ ?_)
  funext err t
  split_ifs <;> rfl

theorem ends_loadSwitch {Q : Unit → Boot Point Cal → Prop} (file : SwitchFile) :
    Ends (loadSwitch c file) s Q E ↔
      match file.failure with
      | none => Q () (s.register c (switches [file]))
      | some err => E err s := by
  unfold loadSwitch SwitchFile.failure switches
  cases hjson : file.json with
  | error err => simp
  | ok u =>
    cases hrelay : file.relay with
    | ok id => simp [ends_addComponent, SwitchFile.failure, hjson, hrelay, Except.toOption]
    | error err => cases err <;> simp [SwitchFile.failure, hjson, hrelay, Except.toOption]

theorem switches_cons_none {file : SwitchFile} {files : List SwitchFile} (h : file.failure = none) :
    switches (file :: files) = switches [file] ++ switches files := by
  have hfiles : (file :: files).takeWhile (fun file => file.failure.isNone) =
      [file] ++ files.takeWhile fun file => file.failure.isNone := by
    simp [h]
  rw [switches, hfiles, List.filterMap_append]
  simp [switches, h]

theorem ends_forM_loadSwitch {Q : Unit → Boot Point Cal → Prop} (files : List SwitchFile) :
    Ends (files.forM (loadSwitch c)) s Q E ↔
      match files.findSome? SwitchFile.failure with
      | none => Q () (s.register c (switches files))
      | some err => E err (s.register c (switches files)) := by
  induction files generalizing s with
  | nil => simp [switches]
  | cons file files ih =>
    rw [ends_forM_cons, ends_loadSwitch]
    cases hfailure : file.failure with
    | none =>
      have hcons : switches (file :: files) = switches [file] ++ switches files :=
        switches_cons_none hfailure
      rw [hcons, register_append, List.findSome?_cons, hfailure]
      exact ih
    | some err => simp [hfailure, switches]

theorem ends_loadSwitches {Q : Unit → Boot Point Cal → Prop} :
    Ends (loadSwitches c) s Q E ↔
      if switchFailure c = some .exit then E .exit (s.register c (madeSwitches c))
      else Q () (s.register c (madeSwitches c)) := by
  unfold loadSwitches switchFailure madeSwitches
  rw [ends_exceptException, ends_bind]
  cases hfiles : c.switchFiles with
  | error err => cases err <;> simp [Except.toOption, switches]
  | ok files =>
    rw [ends_call_ok, ends_forM_loadSwitch]
    cases hfailure : files.findSome? SwitchFile.failure with
    | none => simp [hfailure, Except.toOption]
    | some err => cases err <;> simp [hfailure, Except.toOption]

theorem ends_loadPreselector {Q : Unit → Boot Point Cal → Prop} :
    Ends (loadPreselector cfg c) s Q E ↔
      (hasPreselector cfg = true → ∀ err, c.makePreselector = .error err → E err s) ∧
        ((hasPreselector cfg = true → c.makePreselector = .ok ()) →
          Q () (s.register c (madePreselector cfg))) := by
  unfold loadPreselector madePreselector
  cases hasPreselector cfg with
  | false => simp
  | true => cases c.makePreselector <;> simp [ends_addComponent]

/-- A signal analyzer that cannot be made marks the container. -/
theorem ends_loadSigan {Q : Bool → Boot Point Cal → Prop} :
    Ends (loadSigan cfg c) s Q E ↔
      (((siganOutcome cfg c).isOk = false → marking cfg c .noSigan = .ok ()) →
        Q (hasSigan cfg c) { s.register c (madeSigan cfg c) with
          marked := s.marked || (!(siganOutcome cfg c).isOk && cfg.inDocker) }) ∧
        ((siganOutcome cfg c).isOk = false → ∀ err, marking cfg c .noSigan = .error err → E err s) := by
  unfold loadSigan madeSigan hasSigan siganOutcome
  cases cfg.runningMigrations with
  | true => simp [Except.toOption, Except.isOk, Except.toBool]
  | false =>
    simp only [Bool.false_eq_true, if_false, ends_tryCatch, ends_bind]
    cases getUsbDeviceExists cfg c.lsusbAgain with
    | error err =>
      simp [ends_setContainerUnhealthy, Except.bind, Except.toOption, Except.isOk, Except.toBool]
    | ok found =>
      cases found with
      | false => simp [Except.bind, Except.toOption, Except.isOk, Except.toBool]
      | true =>
        cases checkForRequiredSiganSettings cfg with
        | error err =>
          simp [ends_setContainerUnhealthy, Except.bind, Except.toOption, Except.isOk,
            Except.toBool]
        | ok u =>
          cases c.makeSigan with
          | error err =>
            simp [ends_setContainerUnhealthy, Except.bind, Except.map, Except.toOption, Except.isOk,
              Except.toBool]
          | ok u =>
            simp [ends_addComponent, Except.bind, Except.map, Except.toOption, Except.isOk,
              Except.toBool]
            rfl

end Parts

/-! ### What a start needs -/

/-- The definition of the sensor has a file, and no `BaseException` ends its reading. -/
def Defined (cfg : StartSettings) (c : Calls Point Cal) : Prop :=
  ∃ path, cfg.sensorDefinitionFile = some path ∧ c.sensorDefinition path ≠ .error .exit

/-- The sensor is made: its location is, and a missing signal analyzer can be marked. -/
structure SensorMade (cfg : StartSettings) (c : Calls Point Cal) : Prop where
  location : (loadLocation cfg (usedDefinition cfg c)).isOk = true
  sigan : (siganOutcome cfg c).isOk = false → marking cfg c .noSigan = .ok ()
  sensor : c.makeSensor = .ok ()

/-- The sensor is loaded: it is made, after the parts that are needed for it. -/
structure Loads (cfg : StartSettings) (c : Calls Point Cal) : Prop extends SensorMade cfg c where
  actions : c.loadActions = .ok ()
  definition : Defined cfg c
  switches : switchFailure c ≠ some .exit
  preselector : hasPreselector cfg = true → c.makePreselector = .ok ()
  device : getUsbDeviceExists cfg c.lsusb = .ok true

/-- The signal analyzer is there and says that it is healthy, and the rest starts. -/
structure Healthy (cfg : StartSettings) (c : Calls Point Cal) : Prop where
  device : getUsbDeviceExists cfg c.lsusbAgain = .ok true
  settings : cfg.siganModule.isSome = true ∧ cfg.siganClass.isSome = true
  made : c.makeSigan = .ok ()
  healthy : c.siganHealthy = .ok true
  ray : c.importRay = .ok () ∧ (cfg.rayInit = true → c.initRay = .ok ())

/-- Nothing is wrong. While migrations run the signal analyzer is left alone. -/
structure Complete (cfg : StartSettings) (c : Calls Point Cal) : Prop extends Loads cfg c where
  healthy : cfg.runningMigrations = false → Healthy cfg c

/-- The location that the definition of the sensor gives it. -/
def definedLocation (cfg : StartSettings) (c : Calls Point Cal) : Option Point :=
  (loadLocation cfg (usedDefinition cfg c)).toOption.getD none

/-- What loading the sensor leaves. -/
def Boot.withSensor (cfg : StartSettings) (c : Calls Point Cal) (s : Boot Point Cal) :
    Boot Point Cal :=
  { s.register c (madeSigan cfg c) with
    marked := s.marked || (!(siganOutcome cfg c).isOk && cfg.inDocker)
    sensor := some {
      signalAnalyzer := hasSigan cfg c
      gps := loadGps cfg c
      location := definedLocation cfg c } }

/-- What the first half leaves when the sensor is loaded. -/
def loaded (cfg : StartSettings) (c : Calls Point Cal) : Boot Point Cal :=
  Boot.withSensor cfg c
    ((({} : Boot Point Cal).register c (madeSwitches c)).register c (madePreselector cfg))

section Ends

variable {cfg : StartSettings} {c : Calls Point Cal} {s : Boot Point Cal}

theorem loadSensor_ends (hs : s.sensor = none) :
    Ends (loadSensor cfg c (usedDefinition cfg c)) s
      (fun sensor t => SensorMade cfg c ∧ { t with sensor := some sensor } = s.withSensor cfg c)
      (fun _ t => ¬ SensorMade cfg c ∧ t.sensor = none ∧
        (t.marked = true → s.marked = true ∨ cfg.inDocker = true)) := by
  rw [loadSensor, ends_bind]
  cases hlocation : loadLocation cfg (usedDefinition cfg c) with
  | error err =>
    refine ⟨fun h => ?_, hs, .inl⟩
    have hok := h.location
    rw [hlocation] at hok
    cases hok
  | ok location =>
    have hdefined : definedLocation cfg c = location := by
      simp [definedLocation, hlocation, Except.toOption]
    rw [ends_call_ok, ends_bind, ends_loadSigan]
    refine ⟨fun hsigan => ?_, fun hfails err hmark => ⟨fun h => ?_, hs, .inl⟩⟩
    · rw [ends_bind]
      cases hmade : c.makeSensor with
      | error err =>
        refine ⟨fun h => ?_, hs, fun hmarked => ?_⟩
        · cases hmade.symm.trans h.sensor
        · exact ((Bool.or_eq_true _ _).mp hmarked).imp_right fun h => ((Bool.and_eq_true _ _).mp h).2
      | ok u =>
        refine ⟨⟨by rw [hlocation]; rfl, hsigan, hmade⟩, ?_⟩
        rw [Boot.withSensor, hdefined]
    · cases hmark.symm.trans (h.sigan hfails)

/-- A container that lacks something is power cycled and marked, and the start sleeps, or
one of these raises. -/
theorem mark_ends {E : Raised → Boot Point Cal → Prop} {Q : Unit → Boot Point Cal → Prop}
    {site : MarkSite} (hreturn : Q () { s with marked := s.marked || cfg.inDocker })
    (hraise : ∀ err, E err s ∧ E err { s with marked := s.marked || cfg.inDocker }) :
    Ends (do
      exceptException (call c.powerCycleSigan) ()
      setContainerUnhealthy cfg c site
      call (c.sleep site)) s Q E := by
  have hmark : Ends (do setContainerUnhealthy cfg c site; call (c.sleep site)) s Q E := by
    rw [ends_bind, ends_setContainerUnhealthy]
    refine ⟨fun _ => ends_call.mpr ⟨fun _ _ => hreturn, fun err _ => (hraise err).2⟩, ?_⟩
    exact fun err _ => (hraise err).1
  rw [ends_bind, ends_exceptException, ends_call]
  refine ⟨fun _ _ => hmark, fun err _ => ?_⟩
  split_ifs
  · exact (hraise err).1
  · exact hmark

/-- The sensor is loaded, or the device is not there and the container is marked. -/
theorem loadPresentSensor_ends (hs : s.sensor = none) :
    Ends (loadPresentSensor cfg c (usedDefinition cfg c)) s
      (fun _ t => getUsbDeviceExists cfg c.lsusb = .ok true ∧ SensorMade cfg c ∧
          t = s.withSensor cfg c ∨
        getUsbDeviceExists cfg c.lsusb = .ok false ∧ t.sensor = none ∧
          t.marked = (s.marked || cfg.inDocker))
      (fun _ t => ¬ (getUsbDeviceExists cfg c.lsusb = .ok true ∧ SensorMade cfg c) ∧
        t.sensor = none ∧ (t.marked = true → s.marked = true ∨ cfg.inDocker = true)) := by
  rw [loadPresentSensor, ends_bind]
  cases hfound : getUsbDeviceExists cfg c.lsusb with
  | error err => exact ⟨nofun, hs, .inl⟩
  | ok found =>
    cases found with
    | false =>
      rw [ends_call_ok, if_neg (by simp)]
      refine mark_ends (.inr ⟨rfl, hs, rfl⟩) fun err => ⟨⟨nofun, hs, .inl⟩, nofun, hs, ?_⟩
      exact fun hmarked => (Bool.or_eq_true _ _).mp hmarked
    | true =>
      rw [ends_call_ok, if_pos rfl, ends_bind]
      refine (loadSensor_ends hs).mono ?_ ?_
      · rintro sensor t ⟨hmade, ht⟩
        exact .inl ⟨rfl, hmade, ht⟩
      · rintro err t ⟨hnot, ht⟩
        exact ⟨fun h => hnot h.2, ht⟩

/-- The switches, the preselector and the sensor, after the actions and the definition. -/
theorem loadParts_ends (hactions : c.loadActions = .ok ()) (hdefinition : Defined cfg c) :
    Ends (do
      loadSwitches c
      loadPreselector cfg c
      loadPresentSensor cfg c (usedDefinition cfg c)) {}
      (fun _ t => Loads cfg c ∧ t = loaded cfg c ∨
        ¬ Loads cfg c ∧ t.sensor = none ∧ t.marked = cfg.inDocker)
      (fun _ t => ¬ Loads cfg c ∧ t.sensor = none ∧ (t.marked = true → cfg.inDocker = true)) := by
  rw [ends_bind, ends_loadSwitches]
  split_ifs with hswitches
  · exact ⟨fun h => h.switches hswitches, rfl, nofun⟩
  rw [ends_bind, ends_loadPreselector]
  refine ⟨fun hhas err hmade => ⟨fun h => ?_, rfl, nofun⟩, fun hmade => ?_⟩
  · cases hmade.symm.trans (h.preselector hhas)
  refine (loadPresentSensor_ends rfl).mono ?_ ?_
  · rintro - t (⟨hdevice, hsensor, ht⟩ | ⟨hdevice, hsensor, hmarked⟩)
    · exact .inl ⟨⟨hsensor, hactions, hdefinition, hswitches, hmade, hdevice⟩, ht⟩
    · refine .inr ⟨fun h => ?_, hsensor, hmarked⟩
      cases hdevice.symm.trans h.device
  · rintro - t ⟨hnot, hsensor, hmarked⟩
    refine ⟨fun h => hnot ⟨h.device, h.toSensorMade⟩, hsensor, fun ht => ?_⟩
    exact (hmarked ht).resolve_left nofun

/-- The first half ends with the sensor, or without it and with the mark, or raises. -/
theorem loadDevices_ends : Ends (loadDevices cfg c) {}
    (fun _ t => Loads cfg c ∧ t = loaded cfg c ∨
      ¬ Loads cfg c ∧ t.sensor = none ∧ t.marked = cfg.inDocker)
    (fun _ t => ¬ Loads cfg c ∧ t.sensor = none ∧ (t.marked = true → cfg.inDocker = true)) := by
  rw [loadDevices, ends_bind]
  cases hactions : c.loadActions with
  | error err =>
    refine ⟨fun h => ?_, rfl, nofun⟩
    cases hactions.symm.trans h.actions
  | ok u =>
    have hparts (hdefinition : Defined cfg c) :
        Ends (do
          loadSwitches c
          loadPreselector cfg c
          loadPresentSensor cfg c (usedDefinition cfg c)) {} _ _ := loadParts_ends hactions hdefinition
    rw [ends_call_ok, ends_bind, loadCapabilities]
    cases hfile : cfg.sensorDefinitionFile with
    | none =>
      refine ⟨fun h => ?_, rfl, nofun⟩
      obtain ⟨path, hpath, -⟩ := h.definition
      cases hfile.symm.trans hpath
    | some path =>
      dsimp only
      rw [ends_exceptException]
      cases hdefinition : c.sensorDefinition path with
      | ok definition =>
        have hused : usedDefinition cfg c = definition := by
          simp [usedDefinition, hfile, hdefinition, Except.toOption]
        rw [ends_call_ok, ← hused]
        exact hparts ⟨path, hfile, by rw [hdefinition]; nofun⟩
      | error err =>
        have hused : usedDefinition cfg c = none := by
          simp [usedDefinition, hfile, hdefinition, Except.toOption]
        rw [ends_call_error]
        split_ifs with hexit
        · refine ⟨fun h => ?_, rfl, nofun⟩
          obtain ⟨path', hpath, hnot⟩ := h.definition
          obtain rfl := Option.some.inj (hfile.symm.trans hpath)
          exact hnot (hexit ▸ hdefinition)
        · rw [← hused]
          refine hparts ⟨path, hfile, fun h => hexit ?_⟩
          exact Except.error.inj (hdefinition.symm.trans h)

/-- The signal analyzer of the sensor says that it is healthy. -/
def isHealthy (c : Calls Point Cal) (sensor : StartedSensor Point Cal) : Bool :=
  sensor.signalAnalyzer && c.siganHealthy.toOption.getD false

theorem ends_checkSigan {Q : Unit → Boot Point Cal → Prop} {E : Raised → Boot Point Cal → Prop}
    {sensor : StartedSensor Point Cal} (hs : s.sensor = some sensor)
    (hreturn : Q () { s with marked := s.marked || (!isHealthy c sensor && cfg.inDocker) })
    (hraise : isHealthy c sensor = false →
      ∀ err, E err s ∧ E err { s with marked := s.marked || cfg.inDocker }) :
    Ends (checkSigan cfg c) s Q E := by
  have hcycle (hsick : isHealthy c sensor = false) :
      Ends (do
        exceptException (call c.powerCycleSigan) ()
        setContainerUnhealthy cfg c .notHealthy
        call (c.sleep .notHealthy)) s Q E := by
    rw [hsick] at hreturn
    exact mark_ends hreturn (hraise hsick)
  rw [checkSigan, ends_bind, ends_get, hs]
  dsimp only
  unfold isHealthy at hreturn hraise hcycle
  cases hsigan : sensor.signalAnalyzer with
  | false =>
    rw [hsigan] at hcycle
    exact hcycle rfl
  | true =>
    rw [hsigan] at hreturn hraise hcycle
    rw [if_pos rfl, ends_bind]
    cases hhealthy : c.siganHealthy with
    | error err =>
      rw [hhealthy] at hraise
      exact (hraise rfl err).1
    | ok healthy =>
      rw [hhealthy] at hreturn hcycle
      cases healthy with
      | false => exact hcycle rfl
      | true => simpa [Except.toOption] using hreturn

theorem ends_loadCalibrations {Q : Unit → Boot Point Cal → Prop}
    {E : Raised → Boot Point Cal → Prop} {sensor : StartedSensor Point Cal}
    (hs : s.sensor = some sensor) : Ends (loadCalibrations cfg c) s Q E ↔ Q () { s with
      sensor := some (if cfg.runningTests then sensor else calibrate cfg c sensor) } := by
  unfold loadCalibrations
  cases cfg.runningTests with
  | true => simp [← hs]
  | false => simp [hs]

theorem ends_startRay {Q : Unit → Boot Point Cal → Prop} {E : Raised → Boot Point Cal → Prop}
    (hreturn : c.importRay = .ok () → (cfg.rayInit = true → c.initRay = .ok ()) → Q () s)
    (hraise : ¬ (c.importRay = .ok () ∧ (cfg.rayInit = true → c.initRay = .ok ())) →
      ∀ err, E err s) : Ends (startRay cfg c) s Q E := by
  rw [startRay, ends_bind, ends_call]
  refine ⟨fun u himport => ?_, fun err himport => hraise (fun h => ?_) err⟩
  · split_ifs with hinit
    · rw [ends_call]
      refine ⟨fun u hray => hreturn himport fun _ => hray, fun err hray => hraise (fun h => ?_) err⟩
      cases hray.symm.trans (h.2 hinit)
    · exact hreturn himport fun h => absurd h hinit
  · cases himport.symm.trans h.1

/-- The calibrations leave the location alone. -/
theorem calibrated_location (sensor : StartedSensor Point Cal) :
    (if cfg.runningTests then sensor else calibrate cfg c sensor).location = sensor.location := by
  split_ifs <;> rfl

/-- The second half marks a container without a healthy signal analyzer, or raises. -/
theorem checkDevices_ends {sensor : StartedSensor Point Cal} (hs : s.sensor = some sensor) :
    Ends (checkDevices cfg c) s
      (fun _ t => (c.importRay = .ok () ∧ (cfg.rayInit = true → c.initRay = .ok ())) ∧
        t = { s with
          marked := s.marked || (!isHealthy c sensor && cfg.inDocker)
          sensor := some (if cfg.runningTests then sensor else calibrate cfg c sensor) })
      (fun _ t => ¬ (isHealthy c sensor = true ∧ c.importRay = .ok () ∧
          (cfg.rayInit = true → c.initRay = .ok ())) ∧
        t.sensor.map StartedSensor.location = some sensor.location ∧
        (t.marked = true → s.marked = true ∨ cfg.inDocker = true)) := by
  rw [checkDevices, ends_bind]
  refine ends_checkSigan hs ?_ ?_
  · rw [ends_bind]
    refine Iff.mpr (ends_loadCalibrations hs) ?_
    refine ends_startRay (fun himport hray => ⟨⟨himport, hray⟩, rfl⟩) fun hnot err => ?_
    refine ⟨fun h => hnot h.2, ?_, fun hmarked => ?_⟩
    · exact congrArg some (calibrated_location sensor)
    exact ((Bool.or_eq_true _ _).mp hmarked).imp_right fun h => ((Bool.and_eq_true _ _).mp h).2
  · intro hsick err
    have hnot : ¬ (isHealthy c sensor = true ∧ c.importRay = .ok () ∧
        (cfg.rayInit = true → c.initRay = .ok ())) := by
      intro h
      cases hsick.symm.trans h.1
    refine ⟨⟨hnot, by rw [hs]; rfl, .inl⟩, hnot, by rw [hs]; rfl, fun hmarked => ?_⟩
    exact (Bool.or_eq_true _ _).mp hmarked

/-- What a start leaves when nothing is wrong. -/
def finished (cfg : StartSettings) (c : Calls Point Cal) : Boot Point Cal where
  components := (madeSwitches c ++ madePreselector cfg ++
    if cfg.runningMigrations then [] else [Component.signalAnalyzer]).filter c.hasStatus
  sensor :=
    let sensor : StartedSensor Point Cal := {
      signalAnalyzer := !cfg.runningMigrations
      gps := loadGps cfg c
      location := definedLocation cfg c }
    some (if cfg.runningMigrations || cfg.runningTests then sensor else calibrate cfg c sensor)

theorem siganOutcome_migrations (h : cfg.runningMigrations = true) :
    siganOutcome cfg c = .ok false := by
  rw [siganOutcome, if_pos h]

/-- A signal analyzer is made when its device, its settings and its class are there. -/
theorem hasSigan_iff (h : cfg.runningMigrations = false) : hasSigan cfg c = true ↔
    getUsbDeviceExists cfg c.lsusbAgain = .ok true ∧
      (cfg.siganModule.isSome = true ∧ cfg.siganClass.isSome = true) ∧ c.makeSigan = .ok () := by
  unfold hasSigan siganOutcome checkForRequiredSiganSettings
  rw [h, if_neg (by simp)]
  cases getUsbDeviceExists cfg c.lsusbAgain with
  | error err => simp [Except.bind, Except.toOption]
  | ok found =>
    cases found with
    | false => simp [Except.bind, Except.toOption]
    | true =>
      cases cfg.siganModule <;> cases cfg.siganClass <;> cases c.makeSigan <;>
        simp [Except.bind, Except.map, Except.toOption]

theorem siganOutcome_isOk (h : hasSigan cfg c = true) : (siganOutcome cfg c).isOk = true := by
  unfold hasSigan at h
  cases hsigan : siganOutcome cfg c with
  | ok found => rfl
  | error err =>
    rw [hsigan] at h
    cases h

/-- The signal analyzer of the loaded sensor is healthy, as long as the rest starts. -/
theorem healthy_iff (hmigrations : cfg.runningMigrations = false)
    {sensor : StartedSensor Point Cal} (hsensor : sensor.signalAnalyzer = hasSigan cfg c) :
    Healthy cfg c ↔ isHealthy c sensor = true ∧ c.importRay = .ok () ∧
      (cfg.rayInit = true → c.initRay = .ok ()) := by
  have hhealthy : c.siganHealthy.toOption.getD false = true ↔ c.siganHealthy = .ok true := by
    cases c.siganHealthy <;> simp [Except.toOption]
  rw [isHealthy, hsensor, Bool.and_eq_true, hasSigan_iff hmigrations, hhealthy]
  constructor
  · intro h
    exact ⟨⟨⟨h.device, h.settings, h.made⟩, h.healthy⟩, h.ray⟩
  · rintro ⟨⟨⟨hdevice, hsettings, hmade⟩, hhealthy⟩, hray⟩
    exact ⟨hdevice, hsettings, hmade, hhealthy, hray⟩

/-- There is a sensor, at the location of its definition, exactly when it is loaded. -/
def Situated (cfg : StartSettings) (c : Calls Point Cal) (t : Boot Point Cal) : Prop :=
  (Loads cfg c → t.sensor.map StartedSensor.location = some (definedLocation cfg c)) ∧
    (¬ Loads cfg c → t.sensor = none)

theorem situated_some (hloads : Loads cfg c)
    (hs : s.sensor.map StartedSensor.location = some (definedLocation cfg c)) : Situated cfg c s :=
  ⟨fun _ => hs, fun hnot => absurd hloads hnot⟩

theorem situated_none (hnot : ¬ Loads cfg c) (hs : s.sensor = none) : Situated cfg c s :=
  ⟨fun hloads => absurd hloads hnot, fun _ => hs⟩

theorem Situated.isSome_iff (h : Situated cfg c s) : s.sensor.isSome = true ↔ Loads cfg c := by
  by_cases hloads : Loads cfg c
  · refine ⟨fun _ => hloads, fun _ => ?_⟩
    rw [← Option.isSome_map, h.1 hloads]
    rfl
  · simp [h.2 hloads, hloads]

/-- What holds when the start returns. -/
structure Exact (cfg : StartSettings) (c : Calls Point Cal) (t : Boot Point Cal) : Prop where
  sensor : Situated cfg c t
  marked : t.marked = true ↔ cfg.inDocker = true ∧ ¬ Complete cfg c
  complete : Complete cfg c → t = finished cfg c

/-- What holds when the start raises: its handler could not mark the container. -/
structure Fails (cfg : StartSettings) (c : Calls Point Cal) (err : Raised) (t : Boot Point Cal) :
    Prop where
  sensor : Situated cfg c t
  inDocker : cfg.inDocker = true
  incomplete : ¬ Complete cfg c
  touch : c.touch .handler = .error err

/-- The handler marks the container, which the state before allowed for, or raises. -/
theorem handler_ends (hsensor : Situated cfg c s) (hmarked : s.marked = true → cfg.inDocker = true)
    (hnot : ¬ Complete cfg c) :
    Ends (setContainerUnhealthy cfg c .handler) s (fun _ t => Exact cfg c t) (Fails cfg c) := by
  refine ends_setContainerUnhealthy.mpr ⟨fun _ => ⟨hsensor, ?_, fun h => absurd h hnot⟩, ?_⟩
  · rw [Bool.or_eq_true]
    exact ⟨fun h => ⟨h.elim hmarked id, hnot⟩, fun h => .inr h.1⟩
  · intro err herr
    unfold marking at herr
    split_ifs at herr with hdocker
    exact ⟨hsensor, hdocker, hnot, herr⟩

/-- A start of the migrations leaves the signal analyzer alone. -/
theorem exact_loaded (hloads : Loads cfg c) (h : cfg.runningMigrations = true) :
    Exact cfg c (loaded cfg c) := by
  have hcomplete : Complete cfg c := ⟨hloads, fun hno => nomatch h.symm.trans hno⟩
  have hsigan : siganOutcome cfg c = .ok false := siganOutcome_migrations h
  have hhas : hasSigan cfg c = false := by simp [hasSigan, hsigan, Except.toOption]
  refine ⟨situated_some hloads rfl, ?_, fun _ => ?_⟩
  · simp [loaded, Boot.withSensor, Boot.register, hsigan, hcomplete, Except.isOk, Except.toBool]
  · simp [loaded, finished, Boot.withSensor, Boot.register, hsigan, hhas, h, madeSigan, Except.isOk,
      Except.toBool]

theorem loaded_marked (h : (loaded cfg c).marked = true) : cfg.inDocker = true := by
  have hboth : (!(siganOutcome cfg c).isOk && cfg.inDocker) = true := by
    simpa [loaded, Boot.withSensor] using h
  exact ((Bool.and_eq_true _ _).mp hboth).2

/-- The second half of a start whose sensor was loaded. -/
theorem checkDevices_exact (hloads : Loads cfg c) (h : cfg.runningMigrations = false) :
    Ends (checkDevices cfg c) (loaded cfg c) (fun _ t => Exact cfg c t)
      (fun _ t => Situated cfg c t ∧ (t.marked = true → cfg.inDocker = true) ∧
        ¬ Complete cfg c) := by
  refine (checkDevices_ends rfl).mono ?_ ?_
  · rintro - t ⟨hray, rfl⟩
    generalize hsensor : StartedSensor.mk (hasSigan cfg c) (loadGps cfg c) (definedLocation cfg c)
      none none = sensor
    have hhealthy := healthy_iff h (congrArg StartedSensor.signalAnalyzer hsensor.symm)
    have hlocation : some (if cfg.runningTests then sensor else calibrate cfg c sensor).location =
        some (definedLocation cfg c) := by
      rw [calibrated_location, ← hsensor]
    cases hwell : isHealthy c sensor with
    | true =>
      have hcomplete : Complete cfg c := ⟨hloads, fun _ => hhealthy.mpr ⟨hwell, hray⟩⟩
      have hhas : hasSigan cfg c = true := by
        have hboth := (Bool.and_eq_true _ _).mp hwell
        rw [← hsensor] at hboth
        exact hboth.1
      have hok := siganOutcome_isOk hhas
      refine ⟨situated_some hloads hlocation, ?_, fun _ => ?_⟩
      · simp [loaded, Boot.withSensor, Boot.register, hok, hcomplete]
      · simp [loaded, finished, Boot.withSensor, Boot.register, hok, hhas, h, madeSigan, ← hsensor]
    | false =>
      have hnot : ¬ Complete cfg c := by
        intro hcomplete
        have hwell' := (hhealthy.mp (hcomplete.healthy h)).1
        cases hwell.symm.trans hwell'
      refine ⟨situated_some hloads hlocation, ?_, fun hcomplete => absurd hcomplete hnot⟩
      rw [Bool.or_eq_true]
      exact ⟨fun hm => ⟨hm.elim loaded_marked (fun h => by simpa using h), hnot⟩,
        fun hdocker => .inr (by simpa using hdocker.1)⟩
  · rintro err t ⟨hnot, hsensor, hmarked⟩
    refine ⟨situated_some hloads hsensor, fun h => (hmarked h).elim loaded_marked id, ?_⟩
    intro hcomplete
    exact hnot ((healthy_iff h rfl).mp (hcomplete.healthy h))

theorem ends_checkDevices_none {Q : Unit → Boot Point Cal → Prop}
    {E : Raised → Boot Point Cal → Prop} (hs : s.sensor = none) :
    Ends (checkDevices cfg c) s Q E ↔ E .exception s := by
  rw [checkDevices, ends_bind, checkSigan, ends_bind, ends_get, hs]
  rfl

theorem start_ends (cfg : StartSettings) (c : Calls Point Cal) :
    Ends (start cfg c) {} (fun _ t => Exact cfg c t) (Fails cfg c) := by
  rw [start, ends_tryCatch, ends_bind]
  refine loadDevices_ends.mono ?_ ?_
  · rintro - t (⟨hloads, rfl⟩ | ⟨hnot, hsensor, hmarked⟩)
    · cases h : cfg.runningMigrations with
      | true => exact exact_loaded hloads h
      | false =>
        refine (checkDevices_exact hloads h).mono (fun _ _ h => h) ?_
        rintro err t ⟨hsensor, hmarked, hnot⟩
        exact handler_ends hsensor hmarked hnot
    · have hnone : Situated cfg c t := situated_none hnot hsensor
      have hincomplete : ¬ Complete cfg c := fun h => hnot h.toLoads
      cases h : cfg.runningMigrations with
      | true => exact ⟨hnone, by simp [hmarked, hincomplete], fun h => absurd h hincomplete⟩
      | false =>
        refine (ends_checkDevices_none hsensor).mpr (handler_ends hnone ?_ hincomplete)
        exact fun h => hmarked.symm.trans h
  · rintro err t ⟨hnot, hsensor, hmarked⟩
    exact handler_ends (situated_none hnot hsensor) hmarked fun h => hnot h.toLoads

/-- However the start ends, the sensor is there exactly when it is loaded. -/
theorem situated_start (cfg : StartSettings) (c : Calls Point Cal) :
    Situated cfg c (result (start cfg c) {}).2 := by
  obtain ⟨_, t, ht, hexact⟩ | ⟨err, t, ht, hfails⟩ := (start_ends cfg c).cases
  · exact ht ▸ hexact.sensor
  · exact ht ▸ hfails.sensor

/-- However a start ends, the sensor is loaded exactly when everything before it is there.
A start that returns has marked its container exactly when something is wrong. When
nothing is, it returns, the sensor has its signal analyzer, its location and its
calibrations, and each component that has a status is registered once. A start raises
only in a container with something wrong, when its handler cannot write the mark. -/
theorem start_exact (cfg : StartSettings) (c : Calls Point Cal) :
    ∃ out t, result (start cfg c) {} = (out, t) ∧ (t.sensor.isSome = true ↔ Loads cfg c) ∧
      (out = .ok () → (t.marked = true ↔ cfg.inDocker = true ∧ ¬ Complete cfg c)) ∧
      (Complete cfg c → out = .ok () ∧ t = finished cfg c) ∧
      ∀ err, out = .error err →
        cfg.inDocker = true ∧ ¬ Complete cfg c ∧ c.touch .handler = .error err := by
  obtain ⟨_, t, ht, hexact⟩ | ⟨err, t, ht, hfails⟩ := (start_ends cfg c).cases
  · exact ⟨_, t, ht, hexact.sensor.isSome_iff, fun _ => hexact.marked,
      fun h => ⟨rfl, hexact.complete h⟩, nofun⟩
  · refine ⟨_, t, ht, hfails.sensor.isSome_iff, nofun, fun h => absurd h hfails.incomplete, ?_⟩
    intro err' herr
    obtain rfl := Except.error.inj herr
    exact ⟨hfails.inDocker, hfails.incomplete, hfails.touch⟩

/-- A sensor with a signal analyzer behind a USB device. -/
def behindUsb : StartSettings where
  usbDevice := some ['s', 'd', 'r']
  siganModule := some "sigan"
  siganClass := some "Sigan"
  sensorDefinitionFile := some "sensor_definition.json"

/-- Everything answers: the devices are those of the list, and the signal analyzer says
whether it is healthy. -/
def answering (devices : List Char) (healthy : Bool) : Calls Point Cal where
  loadActions := .ok ()
  sensorDefinition := fun _ => .ok none
  switchFiles := .ok []
  makePreselector := .ok ()
  lsusb := .ok devices
  lsusbAgain := .ok devices
  makeSigan := .ok ()
  makeGps := .ok ()
  makeSensor := .ok ()
  siganHealthy := .ok healthy
  powerCycleSigan := .ok ()
  touch := fun _ => .ok ()
  sleep := fun _ => .ok ()
  calibration := fun _ _ => none
  importRay := .ok ()
  initRay := .ok ()
  hasStatus := fun _ => true

theorem found_behindUsb : getUsbDeviceExists behindUsb (.ok ['s', 'd', 'r']) = .ok true := by decide

theorem complete_answering :
    Complete behindUsb (answering ['s', 'd', 'r'] true : Calls Point Cal) where
  actions := rfl
  definition := ⟨_, rfl, nofun⟩
  switches := show (none : Option Raised) ≠ some .exit from nofun
  preselector := nofun
  device := found_behindUsb
  location := rfl
  sigan _ := rfl
  sensor := rfl
  healthy _ := ⟨found_behindUsb, ⟨rfl, rfl⟩, rfl, rfl, rfl, nofun⟩

end Ends

end ScosSensor.Initialization
