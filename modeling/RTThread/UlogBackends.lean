import RTThread.ByteMemory

namespace RTThread

/-- `color_output_info`, with `none` for `NULL`. -/
abbrev ColorTable := Fin 8 → Option (List UInt8)

def csiStart : List UInt8 := [27, 91]

def csiEnd : List UInt8 := [27, 91, 48, 109]

/-- The table of the default colours. -/
def defaultColors : ColorTable :=
  ![some [51, 53, 109], none, none, some [51, 49, 109], some [51, 51, 109], none, some [51, 50, 109],
    none]

structure UlogBackend where
  address : Nat
  supportColor : Bool
deriving DecidableEq

/-- `ulog.init_ok` and `ulog.backend_list`. -/
structure UlogState where
  initOk : Bool
  backendList : List UlogBackend

/-- A call of `backend->output`; `log` is the offset from the start of the line. -/
structure OutputCall where
  backend : UlogBackend
  level : Fin 8
  tag : Option (List UInt8)
  isRaw : Bool
  log : Nat
  size : Nat
deriving DecidableEq

/-- The start and the size for a backend without colours, from the length of the level's colour. -/
def dropColor (colorInfoLen log size : Nat) : Nat × Nat :=
  if colorInfoLen ≠ 0 then
    let colorHdrLen := csiStart.length + colorInfoLen
    (log + colorHdrLen, wordSub size (colorHdrLen + csiEnd.length))
  else (log, size)

/-- The loop over the backends; `none` where `rt_strlen` reads through a null pointer. -/
def outputLoop (c : ColorTable) (level : Fin 8) (tag : Option (List UInt8)) (isRaw : Bool) :
    List UlogBackend → Nat → Nat → Option (List OutputCall)
  | [], _, _ => some []
  | backend :: rest, log, size =>
    if backend.supportColor then
      (outputLoop c level tag isRaw rest log size).map (⟨backend, level, tag, isRaw, log, size⟩ :: ·)
    else
      match c level with
      | none => none
      | some color =>
        let cut := dropColor color.length log size
        (outputLoop c level tag isRaw rest cut.1 cut.2).map
          (⟨backend, level, tag, isRaw, cut.1, cut.2⟩ :: ·)

/-- `ulog_output_to_all_backend` with `ULOG_USING_COLOR` and without `ULOG_USING_SYSLOG`. -/
def ulogOutputToAllBackend (c : ColorTable) (u : UlogState) (level : Fin 8) (tag : Option (List UInt8))
    (isRaw : Bool) (size : Nat) : Option (List OutputCall) :=
  if u.initOk then outputLoop c level tag isRaw u.backendList 0 size else some []

/-- A line: the text that was logged, which is all of a raw line. -/
structure LogLine where
  level : Fin 8
  tag : Option (List UInt8)
  isRaw : Bool
  text : List UInt8

namespace LogLine

/-- The colour that the line was formatted with. -/
def color (c : ColorTable) (line : LogLine) : Option (List UInt8) :=
  if line.isRaw then none else c line.level

def colorStart (c : ColorTable) (line : LogLine) : List UInt8 := (line.color c).elim [] (csiStart ++ ·)

def colorEnd (c : ColorTable) (line : LogLine) : List UInt8 := (line.color c).elim [] fun _ => csiEnd

def bytes (c : ColorTable) (line : LogLine) : List UInt8 := line.colorStart c ++ line.text ++ line.colorEnd c

/-- What each backend is to get: the whole line, or the text alone. -/
def rightCall (c : ColorTable) (line : LogLine) (backend : UlogBackend) : OutputCall :=
  if backend.supportColor then ⟨backend, line.level, line.tag, line.isRaw, 0, (line.bytes c).length⟩
  else ⟨backend, line.level, line.tag, line.isRaw, (line.colorStart c).length, line.text.length⟩

/-- The bytes that a call shows. -/
def shown (c : ColorTable) (line : LogLine) (call : OutputCall) : List UInt8 :=
  ((line.bytes c).drop call.log).take call.size

def Delivered (c : ColorTable) (u : UlogState) (line : LogLine) : Prop :=
  ulogOutputToAllBackend c u line.level line.tag line.isRaw (line.bytes c).length =
    some (u.backendList.map (line.rightCall c))

instance (c : ColorTable) (u : UlogState) (line : LogLine) : Decidable (line.Delivered c u) :=
  inferInstanceAs (Decidable (_ = _))

end LogLine

section
variable {c : ColorTable} {u : UlogState} {line : LogLine} {level : Fin 8} {tag : Option (List UInt8)}
  {isRaw : Bool} {log size : Nat} {backends pre post : List UlogBackend} {b : UlogBackend}

theorem outputLoop_colored (h : ∀ b ∈ pre, b.supportColor = true) :
    outputLoop c level tag isRaw (pre ++ post) log size =
      (outputLoop c level tag isRaw post log size).map
        (pre.map (fun b => ⟨b, level, tag, isRaw, log, size⟩) ++ ·) := by
  induction pre with
  | nil => exact Option.map_id'.symm
  | cons b pre ih =>
    obtain ⟨hb, hpre⟩ := List.forall_mem_cons.mp h
    rw [List.cons_append, outputLoop, if_pos hb, ih hpre, Option.map_map]
    rfl

/-- The first backend without colours. -/
theorem split_plain (h : ¬ ∀ b ∈ backends, b.supportColor = true) : ∃ pre b post,
    backends = pre ++ b :: post ∧ (∀ b ∈ pre, b.supportColor = true) ∧ b.supportColor = false := by
  induction backends with
  | nil => exact absurd (fun b hb => absurd hb List.not_mem_nil) h
  | cons b rest ih =>
    cases hb : b.supportColor with
    | false => exact ⟨[], b, rest, rfl, fun b hb => absurd hb List.not_mem_nil, hb⟩
    | true =>
      obtain ⟨pre, b', post, rfl, hpre, hb'⟩ := ih fun hrest => h (List.forall_mem_cons.mpr ⟨hb, hrest⟩)
      exact ⟨b :: pre, b', post, rfl, List.forall_mem_cons.mpr ⟨hb, hpre⟩, hb'⟩

theorem outputLoop_plain {color : List UInt8} (hb : b.supportColor = false) (hc : c level = some color) :
    outputLoop c level tag isRaw (b :: post) log size =
      (outputLoop c level tag isRaw post (dropColor color.length log size).1
        (dropColor color.length log size).2).map (⟨b, level, tag, isRaw, (dropColor color.length log size).1,
          (dropColor color.length log size).2⟩ :: ·) := by
  rw [outputLoop, if_neg (by simp [hb]), hc]

theorem dropColor_nil : dropColor 0 log size = (log, size) := rfl

theorem dropColor_cons {n : Nat} (h : 0 < n) :
    dropColor n log size = (log + (2 + n), wordSub size (2 + n + 4)) := if_pos h.ne'

/-- What is right from the first backend without colours on. -/
theorem right_from_plain (hpre : ∀ b ∈ pre, b.supportColor = true)
    (h : outputLoop c line.level line.tag line.isRaw (pre ++ post) 0 (line.bytes c).length =
      some ((pre ++ post).map (line.rightCall c))) :
    outputLoop c line.level line.tag line.isRaw post 0 (line.bytes c).length =
      some (post.map (line.rightCall c)) := by
  rw [outputLoop_colored hpre] at h
  obtain ⟨calls, hcalls, heq⟩ := Option.map_eq_some_iff.mp h
  rw [List.map_append] at heq
  rw [hcalls, List.append_inj_right heq (by simp)]

/-- A right first backend without colours has the cut of one line. -/
theorem right_plain {color : List UInt8} (hb : b.supportColor = false) (hc : c line.level = some color)
    (h : outputLoop c line.level line.tag line.isRaw (b :: post) log size =
      some ((b :: post).map (line.rightCall c))) :
    (dropColor color.length log size).1 = (line.colorStart c).length ∧
      outputLoop c line.level line.tag line.isRaw post (dropColor color.length log size).1
        (dropColor color.length log size).2 = some (post.map (line.rightCall c)) := by
  rw [outputLoop_plain hb hc] at h
  obtain ⟨calls, hcalls, heq⟩ := Option.map_eq_some_iff.mp h
  obtain ⟨hcall, rfl⟩ := List.cons.inj heq
  refine ⟨?_, hcalls⟩
  have hlog := congrArg OutputCall.log hcall
  rwa [LogLine.rightCall, if_neg (by simp [hb])] at hlog

theorem formatted_parts {color : List UInt8} (hc : c line.level = some color)
    (hraw : line.isRaw = false) :
    (line.colorStart c).length = 2 + color.length ∧
      (line.bytes c).length = 2 + color.length + line.text.length + 4 := by
  have hcolor : line.color c = some color := by simp [LogLine.color, hraw, hc]
  constructor
  · simp [LogLine.colorStart, hcolor, csiStart]
    omega
  · simp [LogLine.bytes, LogLine.colorStart, LogLine.colorEnd, hcolor, csiStart, csiEnd]
    omega

theorem raw_parts (hraw : line.isRaw = true) : line.colorStart c = [] ∧ line.bytes c = line.text := by
  have hcolor : line.color c = none := by simp [LogLine.color, hraw]
  constructor
  · simp [LogLine.colorStart, hcolor]
  · simp [LogLine.bytes, LogLine.colorStart, LogLine.colorEnd, hcolor]

/-- Once the start has moved behind the colour, the next backend cannot get the line. -/
theorem moved_nil {color : List UInt8} (hc : c line.level = some color) (hraw : line.isRaw = false)
    (hcolor : 0 < color.length)
    (h : outputLoop c line.level line.tag line.isRaw post (2 + color.length) size =
      some (post.map (line.rightCall c))) : post = [] := by
  cases post with
  | nil => rfl
  | cons b rest =>
    exfalso
    cases hb : b.supportColor with
    | true =>
      rw [outputLoop, if_pos hb] at h
      obtain ⟨calls, -, heq⟩ := Option.map_eq_some_iff.mp h
      have hlog := congrArg OutputCall.log (List.cons.inj heq).1
      rw [LogLine.rightCall, if_pos hb] at hlog
      exact absurd hlog (by show ¬ 2 + color.length = 0; omega)
    | false =>
      have hlog := (right_plain hb hc h).1
      rw [dropColor_cons hcolor] at hlog
      rw [(formatted_parts hc hraw).1] at hlog
      exact absurd hlog (by show ¬ 2 + color.length + (2 + color.length) = 2 + color.length; omega)

/-- A level whose colour is the empty string moves nothing. -/
theorem outputLoop_nil (hc : c level = some []) : outputLoop c level tag isRaw backends log size =
    some (backends.map fun b => ⟨b, level, tag, isRaw, log, size⟩) := by
  induction backends with
  | nil => rfl
  | cons b rest ih =>
    cases hb : b.supportColor with
    | true =>
      rw [outputLoop, if_pos hb, ih]
      rfl
    | false =>
      rw [outputLoop_plain hb hc]
      show Option.map _ (outputLoop c level tag isRaw rest log size) = _
      rw [ih]
      rfl

theorem outputLoop_all (h : ∀ b ∈ backends, b.supportColor = true) :
    outputLoop c line.level line.tag line.isRaw backends 0 (line.bytes c).length =
      some (backends.map (line.rightCall c)) := by
  rw [← List.append_nil backends, outputLoop_colored h, outputLoop, Option.map_some, List.append_nil,
    List.append_nil]
  refine congrArg some (List.map_congr_left fun b hb => ?_)
  rw [LogLine.rightCall, if_pos (h b hb)]

/-- With a backend that has no colours the line must have been formatted with one, and no backend may
follow it, since the start stays moved; a raw line is right where the level's colour is empty. -/
theorem delivered_iff (hinit : u.initOk = true) (hsize : (line.bytes c).length < 4294967296) :
    line.Delivered c u ↔ (∀ b ∈ u.backendList, b.supportColor = true) ∨
      (line.isRaw = true ∧ c line.level = some []) ∨
      (line.isRaw = false ∧ ∃ color, c line.level = some color ∧ color ≠ [] ∧
        ∀ b ∈ u.backendList.dropLast, b.supportColor = true) := by
  unfold LogLine.Delivered ulogOutputToAllBackend
  rw [if_pos hinit]
  constructor
  · intro h
    by_cases hall : ∀ b ∈ u.backendList, b.supportColor = true
    · exact .inl hall
    obtain ⟨pre, b, post, hsplit, hpre, hb⟩ := split_plain hall
    rw [hsplit] at h
    have hfrom := right_from_plain hpre h
    cases hc : c line.level with
    | none =>
      rw [outputLoop, if_neg (by simp [hb]), hc] at hfrom
      cases hfrom
    | some color =>
      obtain ⟨hlog, hrest⟩ := right_plain hb hc hfrom
      right
      cases hraw : line.isRaw with
      | true =>
        left
        refine ⟨rfl, ?_⟩
        rcases Nat.eq_zero_or_pos color.length with hnil | hpos
        · rw [List.length_eq_zero_iff.mp hnil]
        · rw [dropColor_cons hpos, (raw_parts hraw).1] at hlog
          exact absurd hlog (by show ¬ 0 + (2 + color.length) = 0; omega)
      | false =>
        right
        have hpos : 0 < color.length := by
          rcases Nat.eq_zero_or_pos color.length with hnil | hpos
          · rw [hnil, dropColor_nil, (formatted_parts hc hraw).1] at hlog
            exact absurd hlog (by show ¬ 0 = 2 + color.length; omega)
          · exact hpos
        rw [dropColor_cons hpos, Nat.zero_add] at hrest
        obtain rfl := moved_nil hc hraw hpos hrest
        refine ⟨rfl, color, rfl, List.ne_nil_of_length_pos hpos, ?_⟩
        rwa [hsplit, List.dropLast_concat]
  · rintro (hall | ⟨hraw, hc⟩ | ⟨hraw, color, hc, hne, hlast⟩)
    · exact outputLoop_all hall
    · rw [outputLoop_nil hc]
      refine congrArg some (List.map_congr_left fun b _ => ?_)
      rw [LogLine.rightCall, (raw_parts hraw).1, (raw_parts hraw).2]
      split <;> rfl
    · by_cases hall : ∀ b ∈ u.backendList, b.supportColor = true
      · exact outputLoop_all hall
      obtain ⟨pre, b, post, hsplit, hpre, hb⟩ := split_plain hall
      have hpost : post = [] := by
        by_contra hpost
        refine absurd (hlast b ?_) (by simp [hb])
        rw [hsplit, List.dropLast_append_of_ne_nil (List.cons_ne_nil b post),
          List.dropLast_cons_of_ne_nil hpost]
        exact List.mem_append_right _ List.mem_cons_self
      subst hpost
      have hpos := List.length_pos_iff.mpr hne
      obtain ⟨hstart, hbytes⟩ := formatted_parts hc hraw
      have hcut : wordSub (line.bytes c).length (2 + color.length + 4) = line.text.length := by
        rw [wordSub_of_le hsize (by omega)]
        omega
      rw [hsplit, outputLoop_colored hpre, outputLoop_plain hb hc, outputLoop, dropColor_cons hpos, hcut]
      simp only [Option.map_some, List.map_append, List.map_cons, List.map_nil, Nat.zero_add]
      refine congrArg some (congrArg₂ _ (List.map_congr_left fun b hb => ?_) ?_)
      · rw [LogLine.rightCall, if_pos (hpre b hb)]
      · rw [LogLine.rightCall, if_neg (by simp [hb]), hstart]

/-- An error line for a console with colours and a file without, in this order. -/
theorem delivered_console_file : LogLine.Delivered defaultColors
    ⟨true, [⟨4096, true⟩, ⟨8192, false⟩]⟩ ⟨3, some [109], false, [104, 105, 13, 10]⟩ :=
  (delivered_iff rfl (by decide)).mpr
    (.inr (.inr ⟨rfl, [51, 49, 109], rfl, by decide, by decide⟩))

/-- The other way round the console gets the line without its colour and four bytes of its end. -/
theorem file_console_not_delivered :
    ulogOutputToAllBackend defaultColors ⟨true, [⟨8192, false⟩, ⟨4096, true⟩]⟩ 3 (some [109]) false 13 =
        some [⟨⟨8192, false⟩, 3, some [109], false, 5, 4⟩, ⟨⟨4096, true⟩, 3, some [109], false, 5, 4⟩] ∧
      ¬ LogLine.Delivered defaultColors ⟨true, [⟨8192, false⟩, ⟨4096, true⟩]⟩
        ⟨3, some [109], false, [104, 105, 13, 10]⟩ := by
  decide

end

end RTThread
