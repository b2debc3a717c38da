import LocalAi.Prompt.Render
import LocalAi.Vision.Expand

/-!
# Counting a chat request

A request is counted without decoding its images: they are sized from their headers, or from
an earlier preparation of the same file.  Generation plans the request the same way, then
encodes every part and expands the prompt.

* `Table`: the grids that preparations have remembered, and what they say of a file.
* `counting_agrees`: a count is the length of the prompt that generation prefills.

What reads a file (its SHA-256, its header, its pixels, its frames), the resize arithmetic and
the tokenizer are the environment `Files`; the vision tower is an `Encoder` with a state.
-/

open List

namespace LocalAi.Vision

open Lib (bind_eq_ok ensure ensure_eq_ok mapM_eq_ok run_bind_eq_ok run_mapM_eq_ok)
open Prompt (ChatRequest renderPrompt prepareChat)
open Tools (Env Jsonschema ToolSet Translators)

/-! ### Files -/

inductive ImageDetail
  | low
  | auto
  | high
deriving DecidableEq

def ImageDetail.maxPixels : ImageDetail → Nat
  | .low => 262144
  | .auto => 4194304
  | .high => 16777216

/-- A decoded, resized image, less its pixels. -/
structure PreparedImage (D : Type) where
  rows : Nat
  cols : Nat
  digest : D

variable {B D S F σ : Type}

def PreparedImage.layout (image : PreparedImage D) : Grid D := ⟨image.rows, image.cols, image.digest⟩

/-- A decoded, sampled and resized video; `S` are seconds. -/
structure PreparedVideo (D S : Type) where
  groups : List (PreparedImage D)
  timestamps : List S
  totalFrames : Nat

/-- What the request's code reads its parts with. -/
structure Files (B D S : Type) where
  length : B → Nat
  sha : B → D
  /-- `image_dimensions`: width and height. -/
  dimensions : B → Except Text (Nat × Nat)
  /-- `smart_resize` of a height and a width within a number of pixels. -/
  smartResize : (height width maxPixels : Nat) → Except Text (Nat × Nat)
  prepareImage : B → ImageDetail → Except Text (PreparedImage D)
  /-- `prepare_video`, for a request that can be cancelled or not. -/
  prepareVideo : (cancellable : Bool) → B → Except Text (PreparedVideo D S)
  timestampText : S → Text
  encode : Text → Except Text (List Nat)

/-- An image or video part of a message. -/
structure ChatImage (B : Type) where
  data : B
  detail : ImageDetail
  video : Bool

/-! ### Sizes from headers -/

abbrev FileKey (D : Type) := D × ImageDetail

/-- Grids and decoded pixel counts of recently prepared image files (`GRIDS`). -/
abbrev Table (D : Type) := List (FileKey D × Grid D × Nat)

structure ImageFile (D : Type) where
  key : FileKey D
  sourcePixels : Nat
  rows : Nat
  cols : Nat
  known : Option (Grid D)

/-- The grid for counting: its digest is unknown until the file has been prepared; `blank` is
the digest of zeros. -/
def ImageFile.grid (blank : D) (file : ImageFile D) : Grid D :=
  file.known.getD ⟨file.rows, file.cols, blank⟩

section Files

variable [DecidableEq D] (files : Files B D S)

/-- The size of a file from its header: decoded pixels, rows and columns. -/
def Files.sized (bytes : B) (detail : ImageDetail) : Except Text (Nat × Nat × Nat) := do
  let (width, height) ← files.dimensions bytes
  let (h, w) ← files.smartResize height width detail.maxPixels
  pure (width * height, h / 32, w / 32)

/-- `ImageFile::plan`. -/
def Files.plan (table : Table D) (bytes : B) (detail : ImageDetail) : Except Text (ImageFile D) :=
  let key := (files.sha bytes, detail)
  match table.find? fun entry => entry.1 = key with
  | some (_, grid, pixels) => .ok ⟨key, pixels, grid.rows, grid.cols, some grid⟩
  | none => do
    let (pixels, rows, cols) ← files.sized bytes detail
    pure ⟨key, pixels, rows, cols, none⟩

/-- `ImageFile::prepare`: the image, and the table with its grid. -/
def Files.prepare (file : ImageFile D) (bytes : B) (table : Table D) :
    Except Text (PreparedImage D × Table D) := do
  let image ← files.prepareImage bytes file.key.2
  ensure ((image.rows, image.cols) = (file.rows, file.cols))
    "the image decoded to another size than its header declares".toList
  let grids := table.filter (fun entry => entry.1 ≠ file.key) ++
    [(file.key, image.layout, file.sourcePixels)]
  pure (image, if 4096 < grids.length then grids.tail else grids)

/-! ### Plans -/

/-- One image or video of a request, before any image pixel is decoded. -/
inductive Planned (B D S : Type)
  | image (bytes : B) (file : ImageFile D)
  | video (video : PreparedVideo D S)

def maxRequestParts : Nat := 64

def maxRequestMediaBytes : Nat := 256 * 2 ^ 20

def maxRequestImagePixels : Nat := 512 * 2 ^ 20

def maxRequestVideoFrames : Nat := 2 * 36000

/-- The parts from the `turn`-th on, after `pixels` of images and `frames` of videos.  Other
requests prepare images meanwhile: `tables turn` is what the part finds. -/
def Files.planParts (cancellable : Bool) (tables : Nat → Table D) :
    (turn pixels frames : Nat) → List (ChatImage B) → Except Text (List (Planned B D S))
  | _, _, _, [] => .ok []
  | turn, pixels, frames, part :: parts =>
    if part.video then do
      let video ← files.prepareVideo cancellable part.data
      ensure (!(maxRequestVideoFrames < frames + video.totalFrames))
        ("a request's videos may hold at most ".toList ++ Nat.toDigits 10 maxRequestVideoFrames ++
          " frames together".toList)
      let rest ← Files.planParts cancellable tables (turn + 1) pixels (frames + video.totalFrames)
        parts
      pure (.video video :: rest)
    else do
      let file ← files.plan (tables turn) part.data part.detail
      ensure (!(maxRequestImagePixels < pixels + file.sourcePixels))
        ("a request's images may hold at most ".toList ++ Nat.toDigits 10 maxRequestImagePixels ++
          " pixels together".toList)
      let rest ← Files.planParts cancellable tables (turn + 1) (pixels + file.sourcePixels) frames
        parts
      pure (.image part.data file :: rest)

def Files.planMedia (request : ChatRequest (ChatImage B)) (cancellable : Bool)
    (tables : Nat → Table D) : Except Text (List (Planned B D S)) := do
  let parts := request.messages.flatMap fun message => message.images.map Prod.snd
  ensure (!(maxRequestParts < parts.length))
    ("a request may hold at most ".toList ++ Nat.toDigits 10 maxRequestParts ++
      " images and videos, not ".toList ++ Nat.toDigits 10 parts.length)
  let bytes := (parts.map fun part => files.length part.data).sum
  ensure (!(maxRequestMediaBytes < bytes))
    ("a request's images and videos may hold at most ".toList ++
      Nat.toDigits 10 maxRequestMediaBytes ++ " bytes together, not ".toList ++
      Nat.toDigits 10 bytes)
  files.planParts cancellable tables 0 0 0 parts

/-! ### Layouts -/

def Files.visual {m : Type → Type} [Monad m] [MonadLiftT (Except Text) m]
    (image : B → ImageFile D → m (Grid D × List F)) (group : PreparedImage D → m (List F)) :
    Planned B D S → m (Visual F D)
  | .image bytes file => do
    let (grid, rows) ← image bytes file
    pure (.image grid rows)
  | .video video => do
    let groups ← (video.groups.zip video.timestamps).mapM fun (frames, seconds) => do
      let text ← liftM (files.encode (files.timestampText seconds))
      let rows ← group frames
      pure (text, frames.layout, rows)
    pure (.video groups)

/-- A part laid out for counting, nothing encoded. -/
def Files.countedVisual (blank : D) : Planned B D S → Except Text (Visual F D) :=
  files.visual (fun _ file => .ok (file.grid blank, [])) fun _ => .ok []

/-- The prompt length `ids` expands to with `planned`, nothing encoded. -/
def Files.plannedLen (blank : D) (ids : List Nat) (planned : List (Planned B D S)) :
    Except Text Nat := do
  let layout ← planned.mapM (files.countedVisual (F := Unit) blank)
  expandedLen ids layout

/-! ### The two paths -/

def hasImages (request : ChatRequest (ChatImage B)) : Bool :=
  request.messages.any fun message => !message.images.isEmpty

/-- The vision tower: rows it has cached, and encoding, which may change that. -/
structure Encoder (F D σ : Type) where
  hash : D → Nat → Nat
  cached : σ → D → Option (List F)
  encode : PreparedImage D → StateT σ (Except Text) (List F)

def visionRequired {α : Type} (vision : Option α) : Except Text α :=
  vision.elim (.error ("image and video input need a vision tower, which this tokenizer-only " ++
    "encoding lacks").toList) .ok

variable (env : Env) (js : Jsonschema) (translators : Translators)

def Files.countChat (blank : D) (vision : Option (Encoder F D σ)) (tables : Nat → Table D)
    (request : ChatRequest (ChatImage B)) : Except Text Nat := do
  let (prompt, _) ← prepareChat env ChatImage.video js translators request
  let ids ← files.encode prompt
  if !hasImages request then
    pure ids.length
  else
    let _ ← visionRequired vision
    let planned ← files.planMedia request false tables
    files.plannedLen blank ids planned

/-- The tools `chat_grammar` returns with the request's constraint. -/
def chatTools (request : ChatRequest (ChatImage B)) : Except Text ToolSet :=
  if request.tools.isEmpty then .ok ⟨[]⟩ else ToolSet.new env js translators request.tools

/-- The rows of an image: an image prepared and encoded before is not decoded again. -/
def Files.encodeImage (encoder : Encoder F D σ) (bytes : B) (file : ImageFile D) :
    StateT (Table D × σ) (Except Text) (Grid D × List F) := fun (table, s) =>
  match file.known.bind fun grid => (encoder.cached s grid.digest).map fun rows => (grid, rows) with
  | some found => .ok (found, table, s)
  | none => do
    let (image, table) ← files.prepare file bytes table
    let (rows, s) ← (encoder.encode image).run s
    pure ((image.layout, rows), table, s)

def Encoder.group (encoder : Encoder F D σ) (frames : PreparedImage D) :
    StateT (Table D × σ) (Except Text) (List F) := fun (table, s) => do
  let (rows, s) ← (encoder.encode frames).run s
  pure (rows, table, s)

def Files.encodedVisual (encoder : Encoder F D σ) :
    Planned B D S → StateT (Table D × σ) (Except Text) (Visual F D) :=
  files.visual (files.encodeImage encoder) encoder.group

/-- `chat_prompt`: the ids generation prefills and the prompt's images, with the table and the
tower as `state` when the parts are encoded. -/
def Files.chatPrompt (blank : D) (vision : Option (Encoder F D σ)) (context maxTokens : Nat)
    (tables : Nat → Table D) (state : Table D × σ) (request : ChatRequest (ChatImage B))
    (tools : ToolSet) : Except Text (List Nat × Option (PromptImages F)) := do
  let prompt ← renderPrompt env ChatImage.video request tools
  let ids ← files.encode prompt
  if !hasImages request then
    pure (ids, none)
  else
    let encoder ← visionRequired vision
    let planned ← files.planMedia request true tables
    -- the tower runs only for a prompt that can be generated
    let length ← files.plannedLen blank ids planned
    ensure (!(context < length + maxTokens))
      (Nat.toDigits 10 length ++ " prompt + ".toList ++ Nat.toDigits 10 maxTokens ++
        " output tokens exceed ".toList ++ Nat.toDigits 10 context ++
        "; no tokens were truncated".toList)
    let (encoded, _) ← (planned.mapM (files.encodedVisual encoder)).run state
    let (ids, images) ← expandPrompt encoder.hash ids encoded
    pure (ids, some images)

end Files

/-! ### What the table remembers -/

variable {pixels : Nat} {request : ChatRequest (ChatImage B)} {tables tables' : Nat → Table D}
  {ids : List Nat} {blank : D} {visuals : List (Visual F D)}

section Table

variable [DecidableEq D] {files : Files B D S} {table : Table D} {bytes : B}
  {detail : ImageDetail} {file : ImageFile D}

inductive Files.Prepared (files : Files B D S) : Table D → Prop
  | start : Prepared files []
  | prepare {table seen table' : Table D} {bytes : B} {detail : ImageDetail} {file : ImageFile D}
      {image : PreparedImage D} (prior : Prepared files table) (earlier : Prepared files seen)
      (hplan : files.plan seen bytes detail = .ok file)
      (hprepare : files.prepare file bytes table = .ok (image, table')) : Prepared files table'

/-- Files of one SHA-256 have one size. -/
def Files.CollisionFree (files : Files B D S) : Prop :=
  ∀ a b, files.sha a = files.sha b → ∀ detail, files.sized a detail = files.sized b detail

def Files.Remembers (files : Files B D S) (table : Table D) : Prop :=
  ∀ entry ∈ table, ∀ bytes, entry.1.1 = files.sha bytes →
    files.sized bytes entry.1.2 = .ok (entry.2.2, entry.2.1.rows, entry.2.1.cols)

structure Files.PlannedAs (files : Files B D S) (bytes : B) (detail : ImageDetail)
    (file : ImageFile D) : Prop where
  key : file.key = (files.sha bytes, detail)
  sized : files.sized bytes detail = .ok (file.sourcePixels, file.rows, file.cols)
  known : ∀ grid ∈ file.known, grid.rows = file.rows ∧ grid.cols = file.cols

theorem Files.Remembers.plan (h : files.Remembers table)
    (hp : files.plan table bytes detail = .ok file) : files.PlannedAs bytes detail file := by
  simp only [Files.plan] at hp
  split at hp
  · next key grid pixels hf =>
    cases hp
    obtain ⟨hk, hm⟩ : key = (files.sha bytes, detail) ∧ (key, grid, pixels) ∈ table :=
      ⟨by simpa using find?_some hf, mem_of_find?_eq_some hf⟩
    have hs := h _ hm bytes (by rw [hk])
    rw [hk] at hs
    exact ⟨rfl, hs, by simp⟩
  · obtain ⟨⟨pixels, rows, cols⟩, hs, hp⟩ := bind_eq_ok.mp hp
    cases hp
    exact ⟨rfl, hs, by simp⟩

theorem Files.Remembers.plan_isOk (h : files.Remembers table) {rows cols : Nat}
    (hs : files.sized bytes detail = .ok (pixels, rows, cols)) :
    ∃ file, files.plan table bytes detail = .ok file ∧ files.PlannedAs bytes detail file := by
  have hok : ∃ file, files.plan table bytes detail = .ok file := by
    simp only [Files.plan]
    split
    · exact ⟨_, rfl⟩
    · rw [hs]
      exact ⟨_, rfl⟩
  obtain ⟨file, hf⟩ := hok
  exact ⟨file, hf, h.plan hf⟩

theorem Files.Prepared.remembers (hf : files.CollisionFree) (h : files.Prepared table) :
    files.Remembers table := by
  induction h with
  | start => intro entry he; simp at he
  | @prepare table seen table' bytes detail file image _ _ hplan hp ih ihseen =>
    have hplanned := ihseen.plan hplan
    obtain ⟨image', himg, hp⟩ := bind_eq_ok.mp hp
    obtain ⟨u, hsa, hp⟩ := bind_eq_ok.mp hp
    have hs : image'.rows = file.rows ∧ image'.cols = file.cols := by
      simpa using ensure_eq_ok.mp hsa
    cases hp
    intro entry he other ho
    -- an entry of the new table is an old one or the new one
    have hm : entry ∈ table ∨ entry = (file.key, image.layout, file.sourcePixels) := by
      have hin : entry ∈ table.filter (fun entry => entry.1 ≠ file.key) ++
          [(file.key, image.layout, file.sourcePixels)] := by
        split at he
        · exact mem_of_mem_tail he
        · exact he
      rcases mem_append.mp hin with hold | hn
      · exact .inl (mem_filter.mp hold).1
      · exact .inr (mem_singleton.mp hn)
    rcases hm with hold | rfl
    · exact ih entry hold other ho
    · rw [hplanned.key] at ho ⊢
      rw [← hf bytes other ho detail, hplanned.sized]
      simp only [PreparedImage.layout, hs.1, hs.2]

end Table

/-! ### Plans agree -/

section Plans

variable [DecidableEq D] {files : Files B D S}

/-- Parts that are laid out alike: only what is remembered of an image may differ. -/
inductive Files.Alike (files : Files B D S) : Planned B D S → Planned B D S → Prop
  | image {bytes : B} {detail : ImageDetail} {file file' : ImageFile D}
      (h : files.PlannedAs bytes detail file) (h' : files.PlannedAs bytes detail file') :
      Alike files (.image bytes file) (.image bytes file')
  | video (video : PreparedVideo D S) : Alike files (.video video) (.video video)

omit [DecidableEq D] in
theorem Files.PlannedAs.same {bytes : B} {detail : ImageDetail} {file file' : ImageFile D}
    (h : files.PlannedAs bytes detail file) (h' : files.PlannedAs bytes detail file') :
    file'.sourcePixels = file.sourcePixels ∧ file'.rows = file.rows ∧ file'.cols = file.cols := by
  have hs := Except.ok.inj (h'.sized.symm.trans h.sized)
  simp only [Prod.mk.injEq] at hs
  exact hs

/-- What a request that can be cancelled reads is there for any request. -/
def Files.Steady (files : Files B D S) : Prop :=
  ∀ bytes video, files.prepareVideo true bytes = .ok video →
    files.prepareVideo false bytes = .ok video

theorem planParts_alike (hs : files.Steady)
    (ht : ∀ n, files.Remembers (tables n)) (ht' : ∀ n, files.Remembers (tables' n))
    {parts : List (ChatImage B)} {turn frames : Nat} {planned : List (Planned B D S)}
    (h : files.planParts true tables turn pixels frames parts = .ok planned) :
    ∃ planned', files.planParts false tables' turn pixels frames parts = .ok planned' ∧
      List.Forall₂ files.Alike planned planned' := by
  induction parts generalizing turn pixels frames planned with
  | nil =>
    cases h
    exact ⟨[], rfl, .nil⟩
  | cons part parts ih =>
    unfold Files.planParts at h ⊢
    split at h
    · next hv =>
      obtain ⟨video, hpr, h⟩ := bind_eq_ok.mp h
      obtain ⟨u, hf, h⟩ := bind_eq_ok.mp h
      obtain ⟨rest, hr, h⟩ := bind_eq_ok.mp h
      cases h
      obtain ⟨rest', hr', ha⟩ := ih hr
      refine ⟨.video video :: rest', ?_, .cons (.video video) ha⟩
      rw [if_pos hv, bind_eq_ok]
      refine ⟨video, hs _ _ hpr, bind_eq_ok.mpr ⟨u, hf, bind_eq_ok.mpr ?_⟩⟩
      exact ⟨rest', hr', rfl⟩
    · next hv =>
      obtain ⟨file, hpl, h⟩ := bind_eq_ok.mp h
      obtain ⟨u, hf, h⟩ := bind_eq_ok.mp h
      obtain ⟨rest, hr, h⟩ := bind_eq_ok.mp h
      cases h
      have hp := (ht turn).plan hpl
      obtain ⟨file', hpl', hp'⟩ := (ht' turn).plan_isOk hp.sized
      have hpi := (hp.same hp').1
      obtain ⟨rest', hr', ha⟩ := ih hr
      refine ⟨.image part.data file' :: rest', ?_, .cons (.image hp hp') ha⟩
      rw [if_neg hv, bind_eq_ok]
      refine ⟨file', hpl', bind_eq_ok.mpr ⟨u, by rwa [hpi], bind_eq_ok.mpr ?_⟩⟩
      exact ⟨rest', by rwa [hpi], rfl⟩

theorem planMedia_alike (hs : files.Steady)
    (ht : ∀ n, files.Remembers (tables n)) (ht' : ∀ n, files.Remembers (tables' n))
    {planned : List (Planned B D S)} (h : files.planMedia request true tables = .ok planned) :
    ∃ planned', files.planMedia request false tables' = .ok planned' ∧
      List.Forall₂ files.Alike planned planned' := by
  simp only [Files.planMedia, bind_eq_ok] at h ⊢
  obtain ⟨u, hp, v, hb, h⟩ := h
  obtain ⟨planned', h', ha⟩ := planParts_alike hs ht ht' h
  exact ⟨planned', ⟨u, hp, v, hb, h'⟩, ha⟩

end Plans

/-! ### Layouts agree -/

section Layouts

variable {files : Files B D S} {part : Planned B D S}

inductive Files.LaidOut (files : Files B D S) : Planned B D S → Visual F D → Prop
  | image {bytes : B} {file : ImageFile D} {grid : Grid D} {rows : List F}
      (hrows : grid.rows = file.rows) (hcols : grid.cols = file.cols) :
      LaidOut files (.image bytes file) (.image grid rows)
  | video {video : PreparedVideo D S} {groups : List (FrameGroup F D)}
      (h : List.Forall₂ (fun entry group => files.encode (files.timestampText entry.2) =
        .ok group.1 ∧ group.2.1 = entry.1.layout) (video.groups.zip video.timestamps) groups) :
      LaidOut files (.video video) (.video groups)

variable {visual : Visual F D}

theorem Files.LaidOut.same {F' : Type} {visual' : Visual F' D} (h : files.LaidOut part visual)
    (h' : files.LaidOut part visual') : visual'.pad = visual.pad ∧ visual'.len = visual.len := by
  cases h with
  | image hr hc =>
    cases h' with
    | image hr' hc' =>
      exact ⟨rfl, by simp only [Visual.len, Grid.tokens, hr, hc, hr', hc']⟩
  | @video video groups hg =>
    cases h' with
    | @video _ groups' hg' =>
      refine ⟨rfl, ?_⟩
      have hl : groups'.map (fun group => group.1.length + group.2.1.tokens + 2) =
          groups.map fun group => group.1.length + group.2.1.tokens + 2 := by
        generalize video.groups.zip video.timestamps = entries at hg hg'
        induction hg generalizing groups' with
        | nil =>
          cases hg'
          rfl
        | cons hf _ ih =>
          cases hg' with
          | cons hf' hre' =>
            have ht := Except.ok.inj (hf'.1.symm.trans hf.1)
            rw [map_cons, map_cons, ih hre', ht, hf.2, hf'.2]
      simp only [Visual.len, hl]

def Planned.Sure : Planned B D S → Prop
  | .image _ file => ∀ grid ∈ file.known, grid.rows = file.rows ∧ grid.cols = file.cols
  | .video _ => True

theorem countedVisual_eq_ok (hsu : part.Sure)
    (h : files.countedVisual blank part = .ok visual) : files.LaidOut part visual := by
  cases part with
  | image bytes file =>
    cases h
    cases hk : file.known with
    | none => exact .image (by simp [ImageFile.grid, hk]) (by simp [ImageFile.grid, hk])
    | some grid =>
      have hs := hsu grid hk
      exact .image (by simpa [ImageFile.grid, hk] using hs.1)
        (by simpa [ImageFile.grid, hk] using hs.2)
  | video =>
    obtain ⟨groups, hgr, h⟩ := bind_eq_ok.mp h
    cases h
    refine .video ((mapM_eq_ok.mp hgr).imp fun entry group hg => ?_)
    obtain ⟨text, ht, hg⟩ := bind_eq_ok.mp hg
    cases hg
    exact ⟨ht, rfl⟩

theorem Files.LaidOut.counted (F' : Type) (blank : D) (h : files.LaidOut part visual) :
    ∃ counted : Visual F' D, files.countedVisual blank part = .ok counted := by
  cases h with
  | image => exact ⟨_, rfl⟩
  | @video video groups hg =>
    suffices hm : ∃ groups' : List (FrameGroup F' D), List.Forall₂
        (fun (entry : PreparedImage D × S) group => (do
          let text ← files.encode (files.timestampText entry.2)
          let rows ← (.ok [] : Except Text (List F'))
          pure (text, entry.1.layout, rows)) = Except.ok group)
        (video.groups.zip video.timestamps) groups' by
      obtain ⟨groups', hg'⟩ := hm
      exact ⟨.video groups', bind_eq_ok.mpr ⟨groups', mapM_eq_ok.mpr hg', rfl⟩⟩
    generalize video.groups.zip video.timestamps = entries at hg
    induction hg with
    | nil => exact ⟨[], .nil⟩
    | @cons entry group entries groups hf _ ih =>
      obtain ⟨groups', hr⟩ := ih
      refine ⟨(group.1, entry.1.layout, []) :: groups', .cons ?_ hr⟩
      rw [hf.1]
      rfl

theorem Files.Alike.sure {part' : Planned B D S} (h : files.Alike part part') :
    part.Sure ∧ part'.Sure := by
  cases h with
  | image h h' => exact ⟨h.known, h'.known⟩
  | video => exact ⟨trivial, trivial⟩

theorem Files.LaidOut.alike {part' : Planned B D S} (h : files.LaidOut part visual)
    (ha : files.Alike part part') : files.LaidOut part' visual := by
  cases ha with
  | image hp hp' =>
    cases h with
    | image hr hc =>
      obtain ⟨-, hr', hc'⟩ := hp.same hp'
      exact .image (hr.trans hr'.symm) (hc.trans hc'.symm)
  | video => exact h

variable {planned : List (Planned B D S)}

theorem laidOut_same {F' : Type}
    {visuals' : List (Visual F' D)} (h : List.Forall₂ files.LaidOut planned visuals)
    (h' : List.Forall₂ files.LaidOut planned visuals') :
    visuals'.map Visual.pad = visuals.map Visual.pad ∧
      visuals'.map Visual.len = visuals.map Visual.len := by
  induction h generalizing visuals' with
  | nil =>
    cases h'
    exact ⟨rfl, rfl⟩
  | cons hf _ ih =>
    cases h' with
    | cons hf' hr' =>
      obtain ⟨hpad, hlen⟩ := hf.same hf'
      obtain ⟨hp, hl⟩ := ih hr'
      simp only [map_cons, hpad, hlen, hp, hl, and_self]

theorem plannedLen_laidOut (hs : ∀ part ∈ planned, part.Sure)
    (h : List.Forall₂ files.LaidOut planned visuals) :
    files.plannedLen blank ids planned = expandedLen ids visuals := by
  have hc : ∃ layout : List (Visual Unit D),
      List.Forall₂ (fun part visual => files.countedVisual blank part = .ok visual) planned layout ∧
        List.Forall₂ files.LaidOut planned layout := by
    induction h with
    | nil => exact ⟨[], .nil, .nil⟩
    | cons hf _ ih =>
      rw [forall_mem_cons] at hs
      obtain ⟨visual, hv⟩ := hf.counted Unit blank
      obtain ⟨layout, hlay, hl⟩ := ih hs.2
      exact ⟨visual :: layout, .cons hv hlay, .cons (countedVisual_eq_ok hs.1 hv) hl⟩
  obtain ⟨layout, hlay, hl⟩ := hc
  obtain ⟨hp, hlen⟩ := laidOut_same h hl
  rw [Files.plannedLen, mapM_eq_ok.mpr hlay]
  exact expandedLen_congr hp hlen

variable [DecidableEq D]

theorem encodedVisual_eq_ok {encoder : Encoder F D σ} (hsu : part.Sure) {t t' : Table D × σ}
    (h : (files.encodedVisual encoder part).run t = .ok (visual, t')) :
    files.LaidOut part visual := by
  cases part with
  | image bytes file =>
    obtain ⟨⟨grid, rows⟩, t₁, hi, h⟩ := run_bind_eq_ok.mp h
    cases h
    obtain ⟨table, s⟩ := t
    change files.encodeImage encoder bytes file (table, s) = _ at hi
    unfold Files.encodeImage at hi
    dsimp only at hi
    split at hi
    · next found hf =>
      cases hi
      obtain ⟨known, hk, hc⟩ := Option.bind_eq_some_iff.mp hf
      obtain ⟨rows', -, heq⟩ := Option.map_eq_some_iff.mp hc
      cases heq
      exact .image (hsu _ hk).1 (hsu _ hk).2
    · obtain ⟨⟨image, table'⟩, hp, hi⟩ := bind_eq_ok.mp hi
      obtain ⟨⟨rows', s'⟩, -, hi⟩ := bind_eq_ok.mp hi
      cases hi
      obtain ⟨image', -, hp⟩ := bind_eq_ok.mp hp
      obtain ⟨u, hsa, hp⟩ := bind_eq_ok.mp hp
      have hs : image'.rows = file.rows ∧ image'.cols = file.cols := by
        simpa using ensure_eq_ok.mp hsa
      cases hp
      exact .image hs.1 hs.2
  | video =>
    obtain ⟨groups, t₁, hgr, h⟩ := run_bind_eq_ok.mp h
    cases h
    refine .video ((run_mapM_eq_ok hgr).imp fun entry group hg => ?_)
    obtain ⟨t, t', hg⟩ := hg
    obtain ⟨text, t₁, ht, hg⟩ := run_bind_eq_ok.mp hg
    obtain ⟨rows, t₂, -, hg⟩ := run_bind_eq_ok.mp hg
    cases hg
    refine ⟨?_, rfl⟩
    obtain ⟨text', ht', heq⟩ := bind_eq_ok.mp ht
    cases heq
    exact ht'

theorem laidOut_encoded {encoder : Encoder F D σ}
    {t t' : Table D × σ} (hs : ∀ part ∈ planned, part.Sure)
    (h : (planned.mapM (files.encodedVisual encoder)).run t = .ok (visuals, t')) :
    List.Forall₂ files.LaidOut planned visuals := by
  have hp := run_mapM_eq_ok h
  clear h
  induction hp with
  | nil => exact .nil
  | cons hf _ ih =>
    rw [forall_mem_cons] at hs
    obtain ⟨t, t', hf⟩ := hf
    exact .cons (encodedVisual_eq_ok hs.1 hf) (ih hs.2)

end Layouts

/-! ### The two paths agree -/

section Agree

variable {files : Files B D S} {part : Planned B D S}

/-- A video shows something, at some time. -/
def Planned.Filmed : Planned B D S → Prop
  | .image .. => True
  | .video film => film.groups.zip film.timestamps ≠ []

structure Files.Sound (files : Files B D S) : Prop where
  free : files.CollisionFree
  steady : files.Steady
  filmed : ∀ cancellable bytes video, files.prepareVideo cancellable bytes = .ok video →
    (Planned.video video : Planned B D S).Filmed

variable {planned : List (Planned B D S)}

theorem alike_sure {planned' : List (Planned B D S)}
    (h : List.Forall₂ files.Alike planned planned') :
    (∀ part ∈ planned, part.Sure) ∧ ∀ part ∈ planned', part.Sure := by
  induction h with
  | nil => simp
  | cons hf _ ih =>
    simp only [forall_mem_cons]
    exact ⟨⟨hf.sure.1, ih.1⟩, hf.sure.2, ih.2⟩

theorem laidOut_alike {planned' : List (Planned B D S)}
    (h : List.Forall₂ files.LaidOut planned visuals)
    (ha : List.Forall₂ files.Alike planned planned') :
    List.Forall₂ files.LaidOut planned' visuals := by
  induction h generalizing planned' with
  | nil =>
    cases ha
    exact .nil
  | cons hf _ ih =>
    cases ha with
    | cons hs hr => exact .cons (hf.alike hs) (ih hr)

theorem Files.LaidOut.grids_ne_nil {visual : Visual F D} (h : files.LaidOut part visual)
    (hf : part.Filmed) : visual.grids ≠ [] := by
  cases h with
  | image => simp [Visual.grids]
  | video hg =>
    intro hn
    have he := map_eq_nil_iff.mp hn
    subst he
    exact hf (forall₂_nil_right_iff.mp hg)

theorem laidOut_grids (h : List.Forall₂ files.LaidOut planned visuals)
    (hf : ∀ part ∈ planned, part.Filmed) : ∀ visual ∈ visuals, visual.grids ≠ [] := by
  induction h with
  | nil => simp
  | cons hfst _ ih =>
    rw [forall_mem_cons] at hf ⊢
    exact ⟨hfst.grids_ne_nil hf.1, ih hf.2⟩

/-- The longest context an engine is opened with. -/
def trainingContext : Nat := 262144

theorem length_expandPrompt {hash : D → Nat → Nat} {expanded : List Nat}
    {images : PromptImages F} {length : Nat}
    (hc : expandedLen ids visuals = .ok length) (hf : length ≤ trainingContext)
    (hgr : ∀ visual ∈ visuals, visual.grids ≠ [])
    (h : expandPrompt hash ids visuals = .ok (expanded, images)) : expanded.length = length := by
  obtain ⟨hp, -, hlen⟩ := expandedLen_eq_ok.mp hc
  obtain ⟨-, rfl, hs⟩ := expandPrompt_eq_ok.mp h
  rw [checkPads_eq_ok] at hp
  have hva : ∀ span ∈ (expandLoop hash ids visuals ⟨[], []⟩).spans, span.Sized := by
    rw [← hs]
    exact images.ordered.sized
  have hsi := (sized_iff hp).mp hva
  rw [← hlen]
  refine length_expandLoop hp (fun visual hv grid hg => ?_) fun visual hv => ?_
  · have hle := len_le_expandedLen hp hv
    have ht := tokens_le_len hg
    simp only [trainingContext] at hf
    omega
  · obtain ⟨grid, hg⟩ := exists_mem_of_ne_nil _ (hgr visual hv)
    have ht := tokens_le_len hg
    have hpos := (hsi visual hv grid hg).1
    omega

variable [DecidableEq D]

theorem planParts_filmed {cancellable : Bool} (hs : files.Sound)
    {parts : List (ChatImage B)} {turn frames : Nat}
    (h : files.planParts cancellable tables turn pixels frames parts = .ok planned) :
    ∀ part ∈ planned, part.Filmed := by
  induction parts generalizing turn pixels frames planned with
  | nil =>
    cases h
    simp
  | cons part parts ih =>
    unfold Files.planParts at h
    split at h
    · obtain ⟨video, hp, h⟩ := bind_eq_ok.mp h
      obtain ⟨u, -, h⟩ := bind_eq_ok.mp h
      obtain ⟨rest, hr, h⟩ := bind_eq_ok.mp h
      cases h
      exact forall_mem_cons.mpr ⟨hs.filmed _ _ _ hp, ih hr⟩
    · obtain ⟨file, -, h⟩ := bind_eq_ok.mp h
      obtain ⟨u, -, h⟩ := bind_eq_ok.mp h
      obtain ⟨rest, hr, h⟩ := bind_eq_ok.mp h
      cases h
      exact forall_mem_cons.mpr ⟨trivial, ih hr⟩

theorem planMedia_filmed {cancellable : Bool} (hs : files.Sound)
    (h : files.planMedia request cancellable tables = .ok planned) :
    ∀ part ∈ planned, part.Filmed := by
  simp only [Files.planMedia, bind_eq_ok] at h
  obtain ⟨u, -, v, -, h⟩ := h
  exact planParts_filmed hs h

variable {env : Env} {js : Jsonschema} {translators : Translators}

omit [DecidableEq D] in
theorem new_eq_of_chatTools {tools : ToolSet}
    (h : chatTools env js translators request = .ok tools) :
    ToolSet.new env js translators request.tools = .ok tools := by
  unfold chatTools at h
  split at h
  · next he =>
    rw [isEmpty_iff.mp he]
    exact h
  · exact h

/-- What generation prefills is what is counted, whatever was prepared meanwhile. -/
theorem countChat_eq (hs : files.Sound) {vision : Option (Encoder F D σ)}
    {context maxTokens : Nat} (hco : context ≤ trainingContext)
    (ht : ∀ n, files.Prepared (tables n))
    (ht' : ∀ n, files.Prepared (tables' n)) {state : Table D × σ} {tools : ToolSet}
    {images : Option (PromptImages F)} (hto : chatTools env js translators request = .ok tools)
    (h : files.chatPrompt env blank vision context maxTokens tables state request tools =
      .ok (ids, images)) :
    files.countChat env js translators blank vision tables' request = .ok ids.length := by
  obtain ⟨prompt, hprompt, h⟩ := bind_eq_ok.mp h
  obtain ⟨text, hte, h⟩ := bind_eq_ok.mp h
  have hprep : prepareChat env ChatImage.video js translators request =
      .ok (prompt, if tools.tools.isEmpty then none else some tools) := by
    simp only [prepareChat, bind_eq_ok]
    exact ⟨tools, new_eq_of_chatTools hto, prompt, hprompt, rfl⟩
  refine bind_eq_ok.mpr ⟨_, hprep, bind_eq_ok.mpr ⟨text, hte, ?_⟩⟩
  split at h
  · next hn =>
    cases h
    exact if_pos hn
  · next hso =>
    obtain ⟨encoder, hv, h⟩ := bind_eq_ok.mp h
    obtain ⟨planned, hp, h⟩ := bind_eq_ok.mp h
    obtain ⟨length, hlen, h⟩ := bind_eq_ok.mp h
    obtain ⟨u, hf, h⟩ := bind_eq_ok.mp h
    obtain ⟨⟨encoded, t⟩, he, h⟩ := bind_eq_ok.mp h
    obtain ⟨⟨expanded, spans⟩, hexpand, h⟩ := bind_eq_ok.mp h
    cases h
    have hr : ∀ n, files.Remembers (tables n) := fun n => (ht n).remembers hs.free
    have hr' : ∀ n, files.Remembers (tables' n) := fun n => (ht' n).remembers hs.free
    obtain ⟨planned', hp', ha⟩ :=
      planMedia_alike hs.steady hr hr' hp
    obtain ⟨hsure, hsure'⟩ := alike_sure ha
    have hl := laidOut_encoded hsure he
    have hc : expandedLen text encoded = .ok length := by
      rw [← plannedLen_laidOut hsure hl]
      exact hlen
    have hlim : length ≤ trainingContext := by
      have hsum : length + maxTokens ≤ context := by simpa using ensure_eq_ok.mp hf
      omega
    have hg := laidOut_grids hl (planMedia_filmed hs hp)
    rw [if_neg hso]
    refine bind_eq_ok.mpr ⟨encoder, hv, bind_eq_ok.mpr ⟨planned', hp', ?_⟩⟩
    rw [plannedLen_laidOut hsure' (laidOut_alike hl ha), hc, length_expandPrompt hc hlim hg hexpand]

end Agree

/-! ### Counting -/

/-- Counting agrees with expansion: on tokens of the vocabulary and grids whose tokens a `u32`
counts, the count is the length of the expanded prompt, whose spans are ordered and hold
exactly its image tokens; and a request counts what generation prefills for it. -/
theorem counting_agrees (hash : D → Nat → Nat) (ids : List Nat) (visuals : List (Visual F D)) :
    ((∀ visual ∈ visuals, 1 ≤ visual.len) →
        ((∃ length, expandedLen ids visuals = .ok length) ↔ checkPads ids visuals = .ok ())) ∧
      ((∀ visual ∈ visuals, 1 ≤ visual.len ∧ visual.Small ∧ visual.Plain) →
        (∀ id ∈ ids, id < vocab) →
        ∀ expanded images, expandPrompt hash ids visuals = .ok (expanded, images) →
          expandedLen ids visuals = .ok expanded.length ∧ Ordered 0 images.spans ∧
            (∀ span ∈ images.spans, span.stop ≤ expanded.length) ∧
            (∀ position (h : position < expanded.length),
              (∃ span ∈ images.spans, span.Holds position) ↔ vocab ≤ expanded[position]) ∧
            images.spans.map ImageSpan.shown = (visuals.flatMap Visual.grids).map shownGrid) ∧
      ∀ [DecidableEq D] (files : Files B D S), files.Sound →
        ∀ (env : Env) (js : Jsonschema) (translators : Translators) (blank : D)
          (vision : Option (Encoder F D σ)) (context maxTokens : Nat)
          (tables tables' : Nat → Table D) (state : Table D × σ)
          (request : ChatRequest (ChatImage B)) (tools : ToolSet) (prefilled : List Nat)
          (images : Option (PromptImages F)),
          context ≤ trainingContext → (∀ n, files.Prepared (tables n)) →
          (∀ n, files.Prepared (tables' n)) → chatTools env js translators request = .ok tools →
          files.chatPrompt env blank vision context maxTokens tables state request tools =
            .ok (prefilled, images) →
          files.countChat env js translators blank vision tables' request =
            .ok prefilled.length := by
  refine ⟨fun hpos => ⟨?_, ?_⟩, ?_, ?_⟩
  · rintro ⟨length, hlen⟩
    exact (expandedLen_eq_ok.mp hlen).1
  · intro hp
    exact ⟨_, expandedLen_eq_ok.mpr ⟨hp, hpos, rfl⟩⟩
  · intro hv hi expanded images h
    obtain ⟨hp, rfl, hs⟩ := expandPrompt_eq_ok.mp h
    have hp' := checkPads_eq_ok.mp hp
    have hl : Laid (expandLoop hash ids visuals ⟨[], []⟩) :=
      laid_expandLoop hp' hi (fun visual hvis => (hv visual hvis).2.1)
        fun visual hvis => (hv visual hvis).2.2
    refine ⟨expandedLen_eq_ok.mpr ⟨hp, fun visual hvis => (hv visual hvis).1, ?_⟩, images.ordered,
      ?_, ?_, ?_⟩
    · exact (length_expandLoop hp' (fun visual hvis => (hv visual hvis).2.1)
        fun visual hvis => (hv visual hvis).1).symm
    · rw [hs]
      exact hl.inside
    · rw [hs]
      exact hl.covers
    · rw [hs]
      exact shown_expandLoop hp'
  · intro _ files hso env js translators blank vision context maxTokens tables tables' state
      request tools prefilled images hc ht ht' hto h
    exact countChat_eq hso hc ht ht' hto h

def marked : (skip : Nat) → Text → List Nat
  | _, [] => []
  | skip + 1, _ :: rest => marked skip rest
  | 0, c :: rest =>
    if "<|image_pad|>".toList.isPrefixOf (c :: rest) then imagePad :: marked 12 rest
    else c.toNat :: marked 0 rest

/-- Files that are all one image of 256 by 256, read as the characters of a prompt are. -/
def squareFiles : Files Unit Unit Unit where
  length _ := 1
  sha _ := ()
  dimensions _ := .ok (256, 256)
  smartResize height width _ := .ok (height, width)
  prepareImage _ _ := .ok ⟨8, 8, ()⟩
  prepareVideo _ _ := .error "not a video".toList
  timestampText _ := []
  encode text := .ok (marked 0 text)

def squareEncoder : Encoder Unit Unit Unit where
  hash _ index := index
  cached _ _ := none
  encode image := pure (List.replicate (image.rows * image.cols * width) ())

def squareRequest : ChatRequest (ChatImage Unit) where
  messages := [⟨.user, [], none, [], none, [(0, ⟨(), .auto, false⟩)]⟩]
  thinking := false
  effort := .xhigh
  reasoningInstruction := false
  preserveThinking := false
  tools := []

theorem squareFiles_sound : squareFiles.Sound where
  free _ _ _ _ := rfl
  steady _ _ h := h
  filmed _ _ _ h := by cases h

def squarePrompt : Text :=
  ("<|im_start|>user\n<|vision_start|><|image_pad|><|vision_end|><|im_end|>\n" ++
    "<|im_start|>assistant\n<think>\n\n</think>\n\n").toList

def squareEnv : Env := ⟨fun _ => .error "expected value".toList, id⟩

def squareSchemas : Jsonschema :=
  ⟨fun _ => .ok fun _ => none, fun _ => .ok (), fun _ _ => .ok fun _ => true⟩

def squareTranslators : Translators := ⟨.ok, .ok, fun _ => .ok ()⟩

def squareVisual : Visual Unit Unit := .image ⟨8, 8, ()⟩ (List.replicate (8 * 8 * width) ())

theorem squarePrompt_expands : ∃ expanded images,
    expandPrompt squareEncoder.hash (marked 0 squarePrompt) [squareVisual] =
      .ok (expanded, images) := by
  have hi : ∀ id ∈ marked 0 squarePrompt, id < vocab := by decide +kernel
  refine expandPrompt_isOk hi ?_ ?_ ?_ (by decide +kernel)
  · simp [Visual.Small, squareVisual, Visual.grids, Grid.tokens]
  · simp [Visual.Plain, squareVisual, Visual.texts]
  · simp [squareVisual, Visual.grids, Grid.tokens]

theorem square_counts : ∃ prefilled images,
    squareFiles.chatPrompt squareEnv () (some squareEncoder) 4096 64 (fun _ => []) ([], ())
      squareRequest ⟨[]⟩ = .ok (prefilled, some images) ∧
    expandedLen (marked 0 squarePrompt) [squareVisual] = .ok prefilled.length ∧
    squareFiles.countChat squareEnv squareSchemas squareTranslators () (some squareEncoder)
      (fun _ => []) squareRequest = .ok prefilled.length := by
  obtain ⟨expanded, images, he⟩ := squarePrompt_expands
  have hi : ∀ id ∈ marked 0 squarePrompt, id < vocab := by decide +kernel
  have hv : ∀ visual ∈ [squareVisual], 1 ≤ visual.len ∧ visual.Small ∧ visual.Plain := by
    simp [squareVisual, Visual.len, Visual.Small, Visual.Plain, Visual.grids, Visual.texts,
      Grid.tokens]
  obtain ⟨-, hexpands, hc⟩ := counting_agrees (B := Unit) (S := Unit) (σ := Unit)
    squareEncoder.hash (marked 0 squarePrompt) [squareVisual]
  have hp : squareFiles.chatPrompt squareEnv () (some squareEncoder) 4096 64 (fun _ => [])
      ([], ()) squareRequest ⟨[]⟩ = .ok (expanded, some images) := by
    refine bind_eq_ok.mpr ⟨squarePrompt, by decide +kernel, bind_eq_ok.mpr ⟨_, rfl, ?_⟩⟩
    refine bind_eq_ok.mpr ⟨squareEncoder, rfl, bind_eq_ok.mpr ⟨_, rfl, ?_⟩⟩
    refine bind_eq_ok.mpr ⟨163, by decide +kernel, bind_eq_ok.mpr ⟨(), rfl, ?_⟩⟩
    exact bind_eq_ok.mpr ⟨([squareVisual], _), rfl, bind_eq_ok.mpr ⟨_, he, rfl⟩⟩
  refine ⟨expanded, images, hp, (hexpands hv hi _ _ he).1, ?_⟩
  exact hc squareFiles squareFiles_sound squareEnv squareSchemas squareTranslators () _ 4096
    64 _ _ _ _ ⟨[]⟩ expanded (some images) (by decide) (fun _ => .start) (fun _ => .start) rfl
    hp

/-- An id above the vocabulary that is in no image, and a grid of more tokens than a `u32`
counts. -/
theorem unbounded_counts_differ :
    (∃ images : PromptImages Unit, expandPrompt (D := Unit) (fun _ _ => 0) [vocab] [] =
      .ok ([vocab], images) ∧ ¬∃ span ∈ images.spans, span.Holds 0) ∧
    ∃ (visual : Visual Unit Unit) (images : PromptImages Unit), 1 ≤ visual.len ∧
      expandPrompt (fun _ _ => 0) [imagePad] [visual] = .ok ([], images) ∧
        expandedLen [imagePad] [visual] = .ok (2 ^ 32) := by
  refine ⟨⟨⟨[], rfl⟩, rfl, by simp⟩, ?_⟩
  have hs : (replicate (65536 * 65536 * width) ()).length = 65536 * 65536 * width :=
    length_replicate
  have hv : validFrom 0 [(⟨0, 65536, 65536, replicate (65536 * 65536 * width) ()⟩ :
      ImageSpan Unit)] = true := by
    refine validFrom_iff.mpr ⟨fun span hsp => ?_, fun _ _ => Nat.zero_le _, by simp⟩
    rw [mem_singleton.mp hsp]
    exact ⟨by decide, hs⟩
  refine ⟨.image ⟨65536, 65536, ()⟩ (replicate (65536 * 65536 * width) ()), ⟨_, hv⟩,
    by decide, ?_, ?_⟩
  · exact expandPrompt_eq_ok.mpr ⟨rfl, rfl, rfl⟩
  · exact expandedLen_eq_ok.mpr ⟨rfl, by decide, rfl⟩

end LocalAi.Vision
