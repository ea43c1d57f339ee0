import Mathlib.Data.List.AList
import Mathlib.Data.Rat.Defs

/-!
# Fields of a serializer

A serializer reads a JSON object field by field. A field is skipped when it is
read-only, or when its name is absent and no default applies; null is a value of
its own, for fields that allow it. The errors of all fields are gathered before
a request is refused, so a field has its value and its errors.
-/
namespace ScosSensor

inductive Json where
  | null
  | bool (b : Bool)
  | int (n : ℤ)
  | float (q : ℚ)
  | str (s : String)
  | list (items : List Json)
  | dict (items : List (String × Json))

/-- A parsed object, each name once. -/
abbrev Obj := AList fun _ : String => Json

/-- Why a field is refused. -/
inductive FieldError where
  | required
  | null
  | invalid
  | rejected
  deriving Repr, DecidableEq

/-- A field of a serializer. Its default may be null, and is left out of a
partial update. -/
structure Field (α : Type) where
  name : String
  readOnly : Bool := false
  required : Bool := true
  default : Option (Option α) := none
  allowNull : Bool := false
  toInternalValue : Json → Option α
  validators : α → Bool := fun _ => true

namespace Field

variable {α : Type} (f : Field α) (isPartial : Bool) (data : Obj)

/-- A value that is not null: its conversion, and the validators. -/
def convert (j : Json) : Except FieldError α :=
  match f.toInternalValue j with
  | none => .error .invalid
  | some a => if f.validators a then .ok a else .error .rejected

/-- `run_validation`; `none` is a field that is skipped, and `some none` null. -/
def runValidation : Except FieldError (Option (Option α)) :=
  if f.readOnly then .ok none
  else
    match data.lookup f.name with
    | none =>
      if isPartial then .ok none else if f.required then .error .required else .ok f.default
    | some .null => if f.allowNull then .ok (some none) else .error .null
    | some j => (f.convert j).map fun a => some (some a)

/-- The value that enters the validated data. -/
def value : Option (Option α) :=
  match f.runValidation isPartial data with
  | .ok v => v
  | .error _ => none

/-- The error of the field, under its name. -/
def errors : List (String × FieldError) :=
  match f.runValidation isPartial data with
  | .ok _ => []
  | .error err => [(f.name, err)]

/-- What the object gives for the field, if that is not null. -/
def sent : Option α :=
  match data.lookup f.name with
  | none => none
  | some .null => none
  | some j => f.toInternalValue j

variable {f isPartial data} {a : α}

theorem value_of_readOnly (h : f.readOnly = true) : f.value isPartial data = none := by
  simp [value, runValidation, h]

theorem value_join_of_readOnly (h : f.readOnly = true) : (f.value isPartial data).join = none := by
  rw [value_of_readOnly h]
  rfl

theorem convert_ok {j : Json} {v : Option (Option α)}
    (h : (f.convert j).map (fun a => some (some a)) = .ok v) :
    ∃ a, f.toInternalValue j = some a ∧ f.validators a = true ∧ v = some (some a) := by
  unfold convert at h
  cases hconv : f.toInternalValue j with
  | none => simp [hconv, Except.map] at h
  | some a =>
    simp only [hconv] at h
    split_ifs at h with hvalid
    · exact ⟨a, rfl, hvalid, (Except.ok.inj h).symm⟩
    · simp [Except.map] at h

/-- A field reads its own name only. -/
theorem runValidation_congr {data' : Obj} (h : data'.lookup f.name = data.lookup f.name) :
    f.runValidation isPartial data' = f.runValidation isPartial data := by
  unfold runValidation
  rw [h]

theorem runValidation_of_readOnly (h : f.readOnly = true) :
    f.runValidation isPartial data = .ok none := by
  simp [runValidation, h]

theorem runValidation_of_absent (hwrite : f.readOnly = false) (hfull : isPartial = false)
    (hrequired : f.required = false) (h : data.lookup f.name = none) :
    f.runValidation isPartial data = .ok f.default := by
  simp [runValidation, hwrite, hfull, hrequired, h]

/-- A value that is sent and passes the checks. -/
theorem runValidation_of_value {j : Json} (hwrite : f.readOnly = false)
    (h : data.lookup f.name = some j) (hj : j ≠ .null) (hconv : f.toInternalValue j = some a)
    (hvalid : f.validators a = true) : f.runValidation isPartial data = .ok (some (some a)) := by
  have hconvert : f.convert j = .ok a := by simp [convert, hconv, hvalid]
  unfold runValidation
  rw [if_neg (by simp [hwrite]), h]
  cases j with
  | null => exact absurd rfl hj
  | _ =>
    dsimp only
    rw [hconvert]
    rfl

/-- A value that is sent, or null in its place. -/
theorem runValidation_of_option {β : Type} {x : Option β} {encode : β → Json} {decode : β → α}
    (hwrite : f.readOnly = false) (hnull : f.allowNull = true)
    (h : data.lookup f.name = some (x.elim .null encode)) (hencode : ∀ b, encode b ≠ .null)
    (hconv : ∀ b ∈ x, f.toInternalValue (encode b) = some (decode b))
    (hvalid : ∀ b ∈ x, f.validators (decode b) = true) :
    f.runValidation isPartial data = .ok (some (x.map decode)) := by
  cases x with
  | none => simp [runValidation, hwrite, h, hnull]
  | some b => exact runValidation_of_value hwrite h (hencode b) (hconv b rfl) (hvalid b rfl)

/-- A field without errors was validated to its value. -/
theorem errors_eq_nil_iff :
    f.errors isPartial data = [] ↔ f.runValidation isPartial data = .ok (f.value isPartial data) := by
  unfold errors value
  cases f.runValidation isPartial data <;> simp

/-- Every way for a writable field to be accepted: it is not sent and takes the
default, it is null where that is allowed, or its value passes the validators. -/
theorem value_cases (hwrite : f.readOnly = false) (h : f.errors isPartial data = []) :
    (f.name ∉ data ∧ f.sent data = none ∧ (isPartial = false → f.required = false) ∧
      f.value isPartial data = if isPartial then none else f.default) ∨
    (f.name ∈ data ∧ f.sent data = none ∧ f.allowNull = true ∧
      f.value isPartial data = some none) ∨
    ∃ a, f.name ∈ data ∧ f.sent data = some a ∧ f.validators a = true ∧
      f.value isPartial data = some (some a) := by
  have hrun := errors_eq_nil_iff.mp h
  generalize f.value isPartial data = v at hrun
  unfold runValidation at hrun
  rw [if_neg (by simp [hwrite])] at hrun
  unfold sent
  cases hlookup : data.lookup f.name with
  | none =>
    simp only [hlookup] at hrun
    refine .inl ⟨AList.lookup_eq_none.mp hlookup, rfl, ?_⟩
    split_ifs at hrun ⊢ with hskips hrequired
    · exact ⟨fun hfull => absurd (hskips.symm.trans hfull) Bool.noConfusion,
        (Except.ok.inj hrun).symm⟩
    · exact ⟨fun _ => Bool.eq_false_iff.mpr hrequired, (Except.ok.inj hrun).symm⟩
  | some j =>
    have hmem : f.name ∈ data := AList.lookup_isSome.mp (by simp [hlookup])
    refine .inr ?_
    cases j with
    | null =>
      simp only [hlookup] at hrun
      split_ifs at hrun with hallow
      exact .inl ⟨hmem, rfl, hallow, (Except.ok.inj hrun).symm⟩
    | _ =>
      simp only [hlookup] at hrun
      obtain ⟨a, hvalue, hvalid, rfl⟩ := convert_ok hrun
      exact .inr ⟨a, hmem, hvalue, hvalid, rfl⟩

/-- Without a default of its own, the value of a field is what was sent. -/
theorem value_join (hwrite : f.readOnly = false) (hdefault : f.default.join = none)
    (h : f.errors isPartial data = []) : (f.value isPartial data).join = f.sent data := by
  rcases value_cases hwrite h with ⟨-, hsent, -, hv⟩ | ⟨-, hsent, -, hv⟩ | ⟨a, -, hsent, -, hv⟩
  · rw [hv, hsent]
    split_ifs
    · rfl
    · exact hdefault
  · rw [hv, hsent]
    rfl
  · rw [hv, hsent]
    rfl

/-- A field has a value when it is named, or when its default fills in. -/
theorem isSome_value (hwrite : f.readOnly = false) (h : f.errors isPartial data = []) :
    (f.value isPartial data).isSome ↔
      f.name ∈ data ∨ (isPartial = false ∧ f.default.isSome) := by
  rcases value_cases hwrite h with ⟨hmem, -, -, hv⟩ | ⟨hmem, -, -, hv⟩ | ⟨a, hmem, -, -, hv⟩
  · cases isPartial <;> simp [hv, hmem]
  · simp [hv, hmem]
  · simp [hv, hmem]

theorem validators_of_sent (hwrite : f.readOnly = false) (h : f.errors isPartial data = [])
    (hsent : f.sent data = some a) : f.validators a = true := by
  rcases value_cases hwrite h with ⟨-, hnone, -⟩ | ⟨-, hnone, -⟩ | ⟨b, -, hsome, hvalid, -⟩
  · simp [hnone] at hsent
  · simp [hnone] at hsent
  · rw [hsome] at hsent
    exact Option.some.inj hsent ▸ hvalid

theorem exists_of_sent (h : f.sent data = some a) :
    ∃ j, data.lookup f.name = some j ∧ f.toInternalValue j = some a := by
  unfold sent at h
  cases hlookup : data.lookup f.name with
  | none => simp [hlookup] at h
  | some j =>
    refine ⟨j, rfl, ?_⟩
    cases j <;> simp_all

/-- A value that is not null was sent. -/
theorem sent_of_value (hwrite : f.readOnly = false) (hdefault : f.default.join = none)
    (h : f.errors isPartial data = []) (hv : f.value isPartial data = some (some a)) :
    f.sent data = some a := by
  rw [← value_join hwrite hdefault h, hv]
  rfl

/-- A required field that null is no value of has been sent. -/
theorem exists_sent (hwrite : f.readOnly = false) (hfull : isPartial = false)
    (hrequired : f.required = true) (hnull : f.allowNull = false)
    (h : f.errors isPartial data = []) : ∃ a, f.sent data = some a := by
  rcases value_cases hwrite h with ⟨-, -, hreq, -⟩ | ⟨-, -, hallow, -⟩ | ⟨a, -, hsent, -⟩
  · simp [hreq hfull] at hrequired
  · simp [hallow] at hnull
  · exact ⟨a, hsent⟩

end Field

end ScosSensor
