import NorFlash.Session.Registry

namespace NorFlash

variable {ω : Type}

/-- What reading gives, for each path. -/
def FileStore.view (files : FileStore ω) (w : ω) (path : String) : Except OsError Bytes :=
  (files.read path w).1

/-- Whether a file can be written depends on its path alone. -/
def FileStore.Steady (files : FileStore ω) : Prop :=
  ∀ path data data' w w', (files.write path data w).1 = .ok () →
    (files.write path data' w').1 = .ok ()

/-- One file has got new content. Several paths may lead to it. -/
structure Replaced (same : String → String → Prop) (path : String) (data : Bytes)
    (v v' : String → Except OsError Bytes) : Prop where
  own : ∀ q, same path q → v' q = .ok data
  others : ∀ q, ¬same path q → v' q = v q

/-- Files last. Of two paths `same` says whether they lead to the same file. -/
structure Equipment.Lasts (eq : Equipment ω) (same : String → String → Prop) : Prop where
  same_refl : ∀ path, same path path
  read : ∀ path w, eq.files.view (eq.files.read path w).2 = eq.files.view w
  note : ∀ n w, eq.files.view (eq.files.note n w) = eq.files.view w
  report : ∀ p w, eq.files.view (eq.report p w) = eq.files.view w
  write : ∀ {path data w w'}, eq.files.write path data w = (.ok (), w') →
    Replaced same path data (eq.files.view w) (eq.files.view w')

namespace Equipment.Lasts

variable {eq : Equipment ω} {same : String → String → Prop} (h : eq.Lasts same)
include h

theorem notes (ns : List Notice) (w : ω) :
    eq.files.view (ns.foldl (fun w n => eq.files.note n w) w) = eq.files.view w := by
  induction ns generalizing w with
  | nil => rfl
  | cons n ns ih => exact (ih _).trans (h.note n w)

/-- Reading a file leaves a world in which every file reads as before. -/
theorem view_of_read {path : String} {r : Except OsError Bytes} {w w' : ω}
    (hread : eq.files.read path w = (r, w')) : eq.files.view w' = eq.files.view w := by
  have hview := h.read path w
  rwa [hread] at hview

theorem saveImage {path : String} {cells : Bytes} {w w' : ω}
    (hsave : Emulator.saveImage eq.files path cells w = (.ok (), w')) :
    Replaced same path cells (eq.files.view w) (eq.files.view w') := by
  unfold Emulator.saveImage at hsave
  cases hwrite : eq.files.write path cells w with
  | mk r w₁ =>
    rw [hwrite] at hsave
    cases r with
    | error e => cases hsave
    | ok _ =>
      cases hsave
      rw [h.note]
      exact h.write hwrite

theorem loadImage_of_view {path : String} {content : Bytes} {w : ω}
    (hcontent : eq.files.view w path = .ok content) (e : Emulator) :
    ∃ w', e.loadImage eq.files path w = (.ok (e.load content), w') ∧
      eq.files.view w' = eq.files.view w := by
  unfold Emulator.loadImage
  cases hread : eq.files.read path w with
  | mk r w₁ =>
    rw [FileStore.view, hread] at hcontent
    cases hcontent
    exact ⟨_, rfl, (h.notes _ _).trans (h.view_of_read hread)⟩

end Equipment.Lasts

/-- An image is laid over the cells, or there is none and they stay as they are. -/
theorem Emulator.loadImage_eq_ok {files : FileStore ω} {path : String} {e e' : Emulator} {w w' : ω}
    (hload : e.loadImage files path w = (.ok e', w')) :
    e' = e ∨ ∃ content, e' = e.load content := by
  unfold loadImage at hload
  cases hread : files.read path w with
  | mk r w₁ =>
    rw [hread] at hload
    cases r with
    | ok content =>
      cases hload
      exact .inr ⟨content, rfl⟩
    | error e₁ =>
      dsimp only at hload
      split at hload
      · cases hload
        exact .inl rfl
      · cases hload

/-- A file that can be written at all can be saved to. -/
theorem FileStore.Steady.saveImage {files : FileStore ω} (h : files.Steady) {path : String}
    {cells : Bytes} {w w' : ω} (hsave : Emulator.saveImage files path cells w = (.ok (), w'))
    (cells' : Bytes) (v : ω) : ∃ v', Emulator.saveImage files path cells' v = (.ok (), v') := by
  unfold Emulator.saveImage at hsave ⊢
  have hwritten : (files.write path cells w).1 = .ok () := by
    rcases hwrite : files.write path cells w with ⟨_ | _, w₁⟩
    · rw [hwrite] at hsave
      cases hsave
    · rfl
  have hwrites := h path cells cells' w v hwritten
  rcases hwrite : files.write path cells' v with ⟨r, v₁⟩
  rw [hwrite] at hwrites
  cases hwrites
  exact ⟨_, rfl⟩

/-- Files in a list, the latest first, and no device at all. The barred paths cannot be written. -/
def Equipment.shelf (barred : List String) : Equipment (List (String × Bytes)) where
  files :=
    { read := fun path w =>
        match w.lookup path with
        | some content => (.ok content, w)
        | none => (.error .notFound, w)
      write := fun path data w =>
        if barred.contains path then (.error .notFound, w) else (.ok (), (path, data) :: w)
      note := fun _ w => w }
  usb :=
    { devices := pure []
      openDevice := fun _ => Act.fail "no device"
      claim := fun _ _ => Act.fail "no device"
      receive := fun _ _ => Act.fail "no device"
      send := fun _ _ => Act.fail "no device"
      release := fun _ w => w
      sleep := fun _ w => w
      note := fun _ w => w }
  spidev :=
    { openFile := fun _ => Act.fail .notFound
      control := fun _ => Act.fail .notFound
      message := fun _ _ => Act.fail .notFound
      bufferText := fun _ => none
      pageSize := fun _ => 4096
      sleep := fun _ w => w
      note := fun _ w => w }
  report := fun _ w => w

theorem Equipment.shelf_view (barred : List String) (w : List (String × Bytes)) (path : String) :
    (shelf barred).files.view w path =
      match w.lookup path with
      | some content => .ok content
      | none => .error .notFound := by
  simp only [FileStore.view, shelf]
  cases w.lookup path <;> rfl

theorem Equipment.shelf_lasts (barred : List String) : (shelf barred).Lasts Eq where
  same_refl _ := rfl
  read path w := by
    have hkeeps : ((shelf barred).files.read path w).2 = w := by
      simp only [shelf]
      cases w.lookup path <;> rfl
    rw [hkeeps]
  note _ _ := rfl
  report _ _ := rfl
  write := by
    intro path data w w' hwrite
    simp only [shelf] at hwrite
    split at hwrite
    · cases hwrite
    · cases hwrite
      constructor
      · rintro q rfl
        rw [shelf_view, List.lookup_cons_self]
      · intro q hq
        have hne : (q == path) = false := by simpa using Ne.symm hq
        rw [shelf_view, shelf_view, List.lookup_cons, hne]

theorem Equipment.shelf_steady (barred : List String) : (shelf barred).files.Steady := by
  intro path data data' w w' hwritten
  simp only [shelf] at hwritten ⊢
  split at hwritten
  · cases hwritten
  case isFalse hbarred =>
    rw [if_neg hbarred]

end NorFlash
