/-
  Http/V2/Settings.lean --- SETTINGS frames: `ngx_http_v2_state_head`,
  `ngx_http_v2_state_settings` and `ngx_http_v2_state_settings_params` of
  `src/http/v2/ngx_http_v2.c`, and frames that arrive in several reads.

  Every effect of a parameter is in the connection, and so outlives a save, but
  one: `window_delta` is a local variable of the handler.  A read that ends
  inside the frame forgets it, so what counts in the end is the difference that
  the parameters of the last read leave.
-/
import Nginx.Http.V2.Windows

set_option autoImplicit false

namespace Nginx.Http.V2

open List Foundation
open Foundation.Resumable

/-- `NGX_HTTP_V2_SETTINGS_PARAM_SIZE` -/
def settingsParamSize : Nat := 6

/-- `NGX_HTTP_V2_HEADER_TABLE_SIZE_SETTING` -/
def headerTableSizeSetting : Nat := 0x1

/-- `NGX_HTTP_V2_ENABLE_PUSH_SETTING` -/
def enablePushSetting : Nat := 0x2

/-- `NGX_HTTP_V2_MAX_STREAMS_SETTING` -/
def maxStreamsSetting : Nat := 0x3

/-- `NGX_HTTP_V2_INIT_WINDOW_SIZE_SETTING` -/
def initWindowSizeSetting : Nat := 0x4

/-- `NGX_HTTP_V2_MAX_FRAME_SIZE_SETTING` -/
def maxFrameSizeSetting : Nat := 0x5

/-- `ngx_http_v2_connection_t`, as far as SETTINGS frames read and write it. -/
structure SettingsConn (σ : Type) where
  /-- `state.length` -/
  length : Nat
  /-- `state.flags` -/
  flags : Byte
  /-- `state.sid` -/
  sid : Nat
  initWindow : Nat
  frameSize : Nat
  concurrentPushes : Nat
  pushDisabled : Bool
  tableUpdate : Bool
  settingsAck : Bool
  /-- the streams index, chain after chain -/
  nodes : List StreamNode
  rest : σ

/-- The handlers that a SETTINGS frame meets. -/
inductive SettingsHandler where
  /-- `ngx_http_v2_state_head` -/
  | head
  /-- `ngx_http_v2_state_settings_params` -/
  | settingsParams
  deriving DecidableEq

/-- A call of a handler. -/
abbrev SettingsTurn (σ : Type) : Type := Turn SettingsHandler (SettingsConn σ) ErrorCode Byte

/-- The rest of the program, `concurrent_pushes` of the configuration, and the
handlers of frames of other types. -/
structure SettingsEnv (σ : Type) extends Events σ where
  concurrentPushes : Nat
  otherFrame : Byte → SettingsConn σ → Bytes → SettingsTurn σ

variable {σ : Type} (env : SettingsEnv σ)

/-- The `switch` of `ngx_http_v2_state_settings_params`: the connection and
`window_delta` behind one parameter. -/
def settingsParam (c : SettingsConn σ) (windowDelta : Int) (id value : Nat) :
    Except ErrorCode (SettingsConn σ × Int) :=
  if id = initWindowSizeSetting then
    if value > maxWindow then .error .flowCtrlError
    else .ok (c, (value : Int) - c.initWindow)
  else if id = maxFrameSizeSetting then
    if value > maxFrameSize ∨ value < defaultFrameSize then .error .protocolError
    else .ok ({ c with frameSize := value }, windowDelta)
  else if id = enablePushSetting then
    if value > 1 then .error .protocolError
    else .ok ({ c with pushDisabled := value = 0 }, windowDelta)
  else if id = maxStreamsSetting then
    .ok ({ c with concurrentPushes := min value env.concurrentPushes }, windowDelta)
  else if id = headerTableSizeSetting then
    .ok ({ c with tableUpdate := true }, windowDelta)
  else .ok (c, windowDelta)

/-- What `ngx_http_v2_state_settings_params` does behind its loop. -/
def settingsFinish (c : SettingsConn σ) (windowDelta : Int) (pos : Bytes) : SettingsTurn σ :=
  match env.sendSettingsAck c.rest with
  | (rest, .ok) =>
    if windowDelta ≠ 0 then
      let (rest, nodes, rc) := adjustWindows env.toEvents windowDelta rest c.nodes
      let c :=
        { c with initWindow := (c.initWindow + windowDelta).toNat, nodes := nodes, rest := rest }
      if rc ≠ .ok then .fail .internalError c else .goOn .head c pos
    else .goOn .head { c with rest := rest } pos
  | (rest, _) => .fail .internalError { c with rest := rest }

/-- The loop of `ngx_http_v2_state_settings_params`. -/
def settingsLoop (c : SettingsConn σ) (windowDelta : Int) (pos : Bytes) : SettingsTurn σ :=
  if c.length = 0 then settingsFinish env c windowDelta pos
  else
    match pos with
    | i₀ :: i₁ :: v₀ :: v₁ :: v₂ :: v₃ :: pos' =>
      let c := { c with length := c.length - settingsParamSize }
      match settingsParam env c windowDelta (parseUint16 i₀ i₁) (parseUint32 v₀ v₁ v₂ v₃) with
      | .error code => .fail code c
      | .ok (c, windowDelta) => settingsLoop c windowDelta pos'
    | _ => stateSave c pos .settingsParams

/-- `ngx_http_v2_state_settings_params` -/
def stateSettingsParams (c : SettingsConn σ) (pos : Bytes) : SettingsTurn σ :=
  settingsLoop env c 0 pos

/-- `ngx_http_v2_state_settings` -/
def stateSettings (c : SettingsConn σ) (pos : Bytes) : SettingsTurn σ :=
  if c.flags = ackFlag then
    if c.length ≠ 0 then .fail .sizeError c
    else .goOn .head { c with settingsAck := true } pos
  else if c.length % settingsParamSize ≠ 0 then .fail .sizeError c
  else stateSettingsParams env c pos

/-- `ngx_http_v2_state_head` -/
def stateHead (c : SettingsConn σ) (pos : Bytes) : SettingsTurn σ :=
  match parseHead pos with
  | none => stateSave c pos .head
  | some (head, pos) =>
    let c := { c with length := head.length, flags := head.flags, sid := head.sid }
    if head.type = settingsFrame then stateSettings env c pos
    else env.otherFrame head.type c pos

/-- `h2c->state.handler(h2c, p, end)` -/
def settingsCall : SettingsHandler → SettingsConn σ → Bytes → SettingsTurn σ
  | .head, c, pos => stateHead env c pos
  | .settingsParams, c, pos => stateSettingsParams env c pos

/-- The bound on the turns of the loop of `ngx_http_v2_read_handler`. -/
def turnBound : Nat := 2 ^ 64

/-- `ngx_http_v2_read_handler`, read after read. -/
def readSettings (w : Waiting SettingsHandler (SettingsConn σ) ErrorCode Byte)
    (reads : List Bytes) : Waiting SettingsHandler (SettingsConn σ) ErrorCode Byte :=
  Resumable.feed (settingsCall env) turnBound w reads

variable {σ : Type}

/-! ## Frames and parameters -/

/-- A SETTINGS frame. -/
structure SettingsFrame where
  flags : Byte
  sid : Nat
  payload : Bytes
  sid_lt : sid < 2 ^ 31
  length_lt : payload.length < 2 ^ 24

/-- The frame on the wire. -/
def SettingsFrame.bytes (frame : SettingsFrame) : Bytes :=
  frameBytes settingsFrame frame.flags frame.sid frame.payload

/-- The whole parameters at the start of some bytes. -/
def settingsOf : Bytes → List (Nat × Nat)
  | i₀ :: i₁ :: v₀ :: v₁ :: v₂ :: v₃ :: pos =>
    (parseUint16 i₀ i₁, parseUint32 v₀ v₁ v₂ v₃) :: settingsOf pos
  | _ => []

/-- The parameters of a frame. -/
def SettingsFrame.params (frame : SettingsFrame) : List (Nat × Nat) := settingsOf frame.payload

/-- The value of the last parameter `id`, if there is one. -/
def lastSetting (id : Nat) : List (Nat × Nat) → Option Nat
  | [] => none
  | p :: ps => (lastSetting id ps).or (if p.1 = id then some p.2 else none)

/-- The connection behind the header of a frame. -/
def SettingsConn.withHead (c : SettingsConn σ) (frame : SettingsFrame) : SettingsConn σ :=
  { c with length := frame.payload.length, flags := frame.flags, sid := frame.sid }

/-- `window_delta` behind some parameters. -/
def windowDeltaAfter (initWindow : Nat) (windowDelta : Int) (params : List (Nat × Nat)) : Int :=
  match lastSetting initWindowSizeSetting params with
  | some v => (v : Int) - initWindow
  | none => windowDelta

/-- The connection behind some parameters, or the error that one of them is. -/
def settingsParams (env : SettingsEnv σ) :
    SettingsConn σ → List (Nat × Nat) → Except (ErrorCode × SettingsConn σ) (SettingsConn σ)
  | c, [] => .ok c
  | c, (id, value) :: params =>
    let c := { c with length := c.length - settingsParamSize }
    match settingsParam env c 0 id value with
    | .error code => .error (code, c)
    | .ok (c, _) => settingsParams env c params

variable {env : SettingsEnv σ}

variable {pos : Bytes}

theorem length_lt_of_noParam
    (h : ∀ i₀ i₁ v₀ v₁ v₂ v₃ rest, pos = i₀ :: i₁ :: v₀ :: v₁ :: v₂ :: v₃ :: rest → False) :
    pos.length < settingsParamSize := by
  match pos with
  | [] | [_] | [_, _] | [_, _, _] | [_, _, _, _] | [_, _, _, _, _] => simp [settingsParamSize]
  | i₀ :: i₁ :: v₀ :: v₁ :: v₂ :: v₃ :: rest => exact (h i₀ i₁ v₀ v₁ v₂ v₃ rest rfl).elim

theorem length_settingsOf (pos : Bytes) :
    (settingsOf pos).length = pos.length / settingsParamSize := by
  fun_induction settingsOf pos with
  | case1 i₀ i₁ v₀ v₁ v₂ v₃ pos ih =>
    simp only [length_cons, ih, settingsParamSize]
    omega
  | case2 pos hshort => exact (Nat.div_eq_of_lt (length_lt_of_noParam hshort)).symm

theorem settingsOf_append (pos more : Bytes) :
    settingsOf (pos ++ more) =
      settingsOf pos ++
        settingsOf (pos.drop (settingsParamSize * (settingsOf pos).length) ++ more) := by
  fun_induction settingsOf pos with
  | case1 i₀ i₁ v₀ v₁ v₂ v₃ pos ih =>
    simp only [cons_append, settingsOf, length_cons, Nat.mul_add, Nat.mul_one]
    rw [ih]
    rfl
  | case2 pos hshort => simp

/-! ## One parameter -/

theorem settingsParam_eq (c : SettingsConn σ) (windowDelta : Int) (id value : Nat) :
    settingsParam env c windowDelta id value =
      (settingsParam env c 0 id value).map fun r =>
        (r.1, if id =
          initWindowSizeSetting then (value : Int) - c.initWindow else windowDelta) := by
  simp only [settingsParam]
  split
  · split <;> rfl
  repeat' (first | rfl | split)

variable {c' : SettingsConn σ}

variable {d : Int}

theorem settingsParam_same {c : SettingsConn σ} {d' : Int} {id value : Nat}
    (h : settingsParam env c d id value = .ok (c', d')) :
    c'.initWindow = c.initWindow ∧ c'.nodes = c.nodes ∧ c'.rest = c.rest ∧
      c'.length = c.length := by
  simp only [settingsParam] at h
  repeat' split at h
  all_goals cases h
  all_goals exact ⟨rfl, rfl, rfl, rfl⟩

/-! ## Parameters in a row -/

theorem settingsParams_append (c : SettingsConn σ) (ps qs : List (Nat × Nat)) :
    settingsParams env c (ps ++ qs) =
      (settingsParams env c ps).bind fun c => settingsParams env c qs := by
  induction ps generalizing c with
  | nil => rfl
  | cons p ps ih =>
    simp only [cons_append, settingsParams]
    split
    · rfl
    · exact ih _

variable {ps : List (Nat × Nat)}

theorem settingsParams_same {c : SettingsConn σ}
    (h : settingsParams env c ps = .ok c') :
    c'.initWindow = c.initWindow ∧ c'.nodes = c.nodes ∧ c'.rest = c.rest ∧
      c'.length = c.length - settingsParamSize * ps.length := by
  induction ps generalizing c with
  | nil =>
    obtain rfl := Except.ok.inj h
    exact ⟨rfl, rfl, rfl, rfl⟩
  | cons p ps ih =>
    simp only [settingsParams] at h
    split at h
    · cases h
    next c₁ d hparam =>
      obtain ⟨hwindow, hnodes, hrest, hlen⟩ := settingsParam_same hparam
      obtain ⟨hwindow', hnodes', hrest', hlen'⟩ := ih h
      refine ⟨hwindow'.trans hwindow, hnodes'.trans hnodes, hrest'.trans hrest, ?_⟩
      rw [hlen', hlen, length_cons, Nat.mul_add, Nat.mul_one, Nat.sub_sub, add_comm]

theorem settingsLoop_save {c : SettingsConn σ} (d : Int)
    (h : pos.length < c.length) (hdvd : settingsParamSize ∣ c.length) :
    settingsLoop env c d pos =
      match settingsParams env c (settingsOf pos) with
      | .error (code, c) => .fail code c
      | .ok c =>
        .save .settingsParams c (pos.drop (settingsParamSize * (settingsOf pos).length)) := by
  induction pos using settingsOf.induct generalizing c d with
  | case1 i₀ i₁ v₀ v₁ v₂ v₃ pos ih =>
    have hz : c.length ≠ 0 := by omega
    obtain ⟨n, hn⟩ := hdvd
    simp only [length_cons, settingsParamSize] at h hn
    rw [settingsLoop, if_neg hz]
    simp only [settingsOf, settingsParams]
    rw [settingsParam_eq]
    cases hparam : settingsParam env { c with length := c.length - settingsParamSize } 0
        (parseUint16 i₀ i₁) (parseUint32 v₀ v₁ v₂ v₃) with
    | error code => rfl
    | ok r =>
      obtain ⟨-, -, -, hlen⟩ := settingsParam_same hparam
      simp only [settingsParamSize] at hlen
      simp only [Except.map]
      rw [ih]
      · simp only [length_cons, Nat.mul_add, Nat.mul_one]
        rfl
      · rw [hlen]; omega
      · exact ⟨n - 1, by simp only [settingsParamSize]; omega⟩
  | case2 pos hshort =>
    have hlt := length_lt_of_noParam hshort
    have hnone : settingsOf pos = [] := by
      rw [← length_eq_zero_iff, length_settingsOf, Nat.div_eq_of_lt hlt]
    rw [settingsLoop.eq_def, if_neg (by omega), hnone]
    split
    next i₀ i₁ v₀ v₁ v₂ v₃ rest => exact (hshort i₀ i₁ v₀ v₁ v₂ v₃ rest rfl).elim
    next =>
      rw [stateSave_of_le (Nat.le_of_lt (lt_trans hlt (by decide)))]
      rfl

theorem settingsLoop_finish {c : SettingsConn σ} (d : Int)
    (h : pos.length = c.length) (hdvd : settingsParamSize ∣ c.length) :
    settingsLoop env c d pos =
      match settingsParams env c (settingsOf pos) with
      | .error (code, c) => .fail code c
      | .ok c' =>
        settingsFinish env c' (windowDeltaAfter c.initWindow d (settingsOf pos)) [] := by
  induction pos using settingsOf.induct generalizing c d with
  | case1 i₀ i₁ v₀ v₁ v₂ v₃ pos ih =>
    obtain ⟨n, hn⟩ := hdvd
    simp only [length_cons, settingsParamSize] at h hn
    rw [settingsLoop, if_neg (by omega)]
    simp only [settingsOf, settingsParams]
    rw [settingsParam_eq]
    cases hparam : settingsParam env { c with length := c.length - settingsParamSize } 0
        (parseUint16 i₀ i₁) (parseUint32 v₀ v₁ v₂ v₃) with
    | error code => rfl
    | ok r =>
      obtain ⟨hwindow, -, -, hlen⟩ := settingsParam_same hparam
      simp only [settingsParamSize] at hlen
      simp only [Except.map]
      rw [ih]
      · have hdelta : windowDeltaAfter r.1.initWindow
            (if parseUint16 i₀ i₁ = initWindowSizeSetting then
              (parseUint32 v₀ v₁ v₂ v₃ : Int) - c.initWindow else d) (settingsOf pos) =
            windowDeltaAfter c.initWindow d
              ((parseUint16 i₀ i₁, parseUint32 v₀ v₁ v₂ v₃) :: settingsOf pos) := by
          rw [hwindow]
          simp only [windowDeltaAfter, lastSetting]
          cases lastSetting initWindowSizeSetting (settingsOf pos) with
          | some v => rfl
          | none => simp only [Option.none_or]; split <;> rfl
        simp only [hdelta]
      · rw [hlen]; omega
      · exact ⟨n - 1, by simp only [settingsParamSize]; omega⟩
  | case2 pos hshort =>
    have hlt := length_lt_of_noParam hshort
    have hz : c.length = 0 := by
      obtain ⟨n, hn⟩ := hdvd
      rcases eq_zero_or_pos n with rfl | hpos
      · exact hn
      · have hle := Nat.le_mul_of_pos_right settingsParamSize hpos
        omega
    obtain rfl := length_eq_zero_iff.mp (h.trans hz)
    rw [settingsLoop.eq_def, if_pos hz]
    rfl

/-! ## Reads -/

variable {c : SettingsConn σ} {frame : SettingsFrame} {pre read more : Bytes}

theorem turnBound_pos : 0 < turnBound := by decide

theorem settingsCall_short (h : pre.length < frameHeaderSize) :
    settingsCall env .head c pre = .save .head c pre := by
  rw [settingsCall, stateHead, parseHead_eq_none_iff.mpr h]
  exact stateSave_of_le (Nat.le_of_lt (lt_trans h (by decide)))

theorem settingsCall_head (body : Bytes) :
    settingsCall env .head c
        (headBytes frame.payload.length settingsFrame frame.flags frame.sid ++ body) =
      stateSettings env (c.withHead frame) body := by
  rw [settingsCall, stateHead, parseHead_headBytes frame.length_lt frame.sid_lt]
  rfl

theorem exists_body (h : pre ++ more = frame.bytes) (hlen : frameHeaderSize ≤ pre.length) :
    ∃ body, pre = headBytes frame.payload.length settingsFrame frame.flags frame.sid ++ body ∧
      body ++ more = frame.payload := by
  rw [SettingsFrame.bytes, frameBytes, append_eq_append_iff] at h
  rcases h with ⟨body, hhead, hmore⟩ | ⟨body, hpre, hpayload⟩
  · have hlenHead := congrArg List.length hhead
    rw [length_headBytes, length_append] at hlenHead
    obtain rfl := length_eq_zero_iff.mp (show body.length = 0 by omega)
    exact ⟨[], by simpa using hhead.symm, by simpa using hmore⟩
  · exact ⟨body, hpre, hpayload.symm⟩

/-- Where the machine is behind a part of a frame that it has not rejected. -/
def midway (env : SettingsEnv σ) (c : SettingsConn σ) (frame : SettingsFrame) (pre : Bytes) :
    Waiting SettingsHandler (SettingsConn σ) ErrorCode Byte :=
  if pre.length < frameHeaderSize then .ready .head c pre
  else
    match settingsParams env (c.withHead frame) (settingsOf (pre.drop frameHeaderSize)) with
    | .error (code, c) => .failed code c
    | .ok c =>
      .ready .settingsParams c ((pre.drop frameHeaderSize).drop
        (settingsParamSize * (settingsOf (pre.drop frameHeaderSize)).length))

theorem midway_short (h : pre.length < frameHeaderSize) :
    midway env c frame pre = .ready .head c pre := if_pos h

theorem midway_body (body : Bytes) :
    midway env c frame
        (headBytes frame.payload.length settingsFrame frame.flags frame.sid ++ body) =
      match settingsParams env (c.withHead frame) (settingsOf body) with
      | .error (code, c) => .failed code c
      | .ok c =>
        .ready .settingsParams c (body.drop (settingsParamSize * (settingsOf body).length)) := by
  have hdrop : (headBytes frame.payload.length settingsFrame frame.flags frame.sid ++ body).drop
      frameHeaderSize = body := drop_left' (length_headBytes ..)
  rw [midway, if_neg (by simp), hdrop]

/-- Where the machine is behind a whole frame, with the difference that its last
read leaves. -/
def settled (env : SettingsEnv σ) (c : SettingsConn σ) (frame : SettingsFrame) (delta : Int) :
    Waiting SettingsHandler (SettingsConn σ) ErrorCode Byte :=
  match settingsParams env (c.withHead frame) frame.params with
  | .error (code, c) => .failed code c
  | .ok c => (settingsFinish env c delta []).atEnd

theorem settled_error {e : ErrorCode × SettingsConn σ} (d : Int)
    (h : settingsParams env (c.withHead frame) frame.params = .error e) :
    settled env c frame d = .failed e.1 e.2 := by
  rw [settled, h]

theorem settled_ok (d : Int)
    (h : settingsParams env (c.withHead frame) frame.params = .ok c') :
    settled env c frame d = (settingsFinish env c' d []).atEnd := by
  rw [settled, h]

variable {h : SettingsHandler} {rest : Bytes}

theorem settingsFinish_rest
    (hfinish : settingsFinish env c d [] = .goOn h c' rest) : rest = [] := by
  simp only [settingsFinish] at hfinish
  repeat' split at hfinish
  all_goals cases hfinish
  all_goals rfl

theorem mul_length_settingsOf_le (pos : Bytes) :
    settingsParamSize * (settingsOf pos).length ≤ pos.length := by
  rw [length_settingsOf]
  exact Nat.mul_div_le ..

theorem kept_of_params (hdvd : frame.payload.length % settingsParamSize = 0)
    {body : Bytes} {c₁ : SettingsConn σ} (h : body ++ rest = frame.payload)
    (hparams : settingsParams env (c.withHead frame) (settingsOf body) = .ok c₁) :
    (body.drop (settingsParamSize * (settingsOf body).length)).length + rest.length = c₁.length ∧
      settingsParamSize ∣ c₁.length := by
  obtain ⟨-, -, -, hlen⟩ := settingsParams_same hparams
  have hpayload : (c.withHead frame).length = body.length + rest.length := by
    rw [← length_append, h]
    rfl
  have hle := mul_length_settingsOf_le body
  rw [hlen, length_drop, hpayload]
  refine ⟨by omega, ?_⟩
  rw [← hpayload]
  exact Nat.dvd_sub (Nat.dvd_of_mod_eq_zero hdvd) (Nat.dvd_mul_right ..)

section Params

variable (hflags : frame.flags ≠ ackFlag) (hdvd : frame.payload.length % settingsParamSize = 0)

include hflags hdvd

theorem stateSettings_eq (body : Bytes) :
    stateSettings env (c.withHead frame) body = settingsLoop env (c.withHead frame) 0 body := by
  have hflags' : (c.withHead frame).flags ≠ ackFlag := hflags
  have hdvd' : (c.withHead frame).length % settingsParamSize = 0 := hdvd
  rw [stateSettings, if_neg hflags', if_neg (not_not.mpr hdvd'), stateSettingsParams]

/-- A read that does not end the frame leaves the parser midway. -/
theorem deliver_midway (h : pre ++ read ++ more = frame.bytes) (hmore : more ≠ []) :
    deliver (settingsCall env) turnBound (midway env c frame pre) read =
      midway env c frame (pre ++ read) := by
  have hpos := length_pos_iff.mpr hmore
  rcases lt_or_ge (pre ++ read).length frameHeaderSize with hshort | hlong
  · have hpre : pre.length < frameHeaderSize := by
      rw [length_append] at hshort
      omega
    rw [midway_short hpre, midway_short hshort, deliver,
      drain_eq_atEnd turnBound_pos (by rw [settingsCall_short hshort]; simp),
      settingsCall_short hshort]
    rfl
  obtain ⟨body, hbody, hpayload⟩ := exists_body h hlong
  have hinside : body.length < (c.withHead frame).length := by
    show body.length < frame.payload.length
    rw [← hpayload, length_append]
    omega
  rcases lt_or_ge pre.length frameHeaderSize with hpre | hpre
  · rw [midway_short hpre, deliver, hbody, midway_body, drain_eq_atEnd turnBound_pos,
      settingsCall_head, stateSettings_eq hflags hdvd,
      settingsLoop_save 0 hinside (Nat.dvd_of_mod_eq_zero hdvd)]
    · split <;> rfl
    · rw [settingsCall_head, stateSettings_eq hflags hdvd,
        settingsLoop_save 0 hinside (Nat.dvd_of_mod_eq_zero hdvd)]
      split <;> simp
  obtain ⟨body₁, hbody₁, hpayload₁⟩ := exists_body (by rw [← append_assoc]; exact h) hpre
  obtain rfl : body = body₁ ++ read := by
    rw [hbody₁, append_assoc] at hbody
    exact (append_cancel_left hbody).symm
  rw [hbody, midway_body, hbody₁, midway_body, settingsOf_append, settingsParams_append]
  cases hparams : settingsParams env (c.withHead frame) (settingsOf body₁) with
  | error e => rfl
  | ok c₁ =>
    obtain ⟨hkept, hdvd₁⟩ := kept_of_params hdvd hpayload₁ hparams
    set kept := body₁.drop (settingsParamSize * (settingsOf body₁).length) with hkeptdef
    have hinside₁ : (kept ++ read).length < c₁.length := by
      simp only [length_append] at hkept ⊢
      omega
    have hrest : (body₁ ++ read).drop
        (settingsParamSize * (settingsOf body₁ ++ settingsOf (kept ++ read)).length) =
          (kept ++ read).drop (settingsParamSize * (settingsOf (kept ++ read)).length) := by
      rw [length_append, Nat.mul_add, ← drop_drop,
        drop_append_of_le_length (mul_length_settingsOf_le body₁)]
    have hcall : settingsCall env .settingsParams c₁ (kept ++ read) = _ :=
      settingsLoop_save 0 hinside₁ hdvd₁
    simp only [deliver, hrest, Except.bind]
    rw [drain_eq_atEnd turnBound_pos, hcall]
    · split <;> simp_all [Turn.atEnd]
    · rw [hcall]
      split <;> simp

/-- The read that ends the frame settles it. -/
theorem deliver_last (h : pre ++ read = frame.bytes) :
    deliver (settingsCall env) turnBound (midway env c frame pre) read =
      settled env c frame (windowDeltaAfter c.initWindow 0
        (frame.params.drop ((pre.length - frameHeaderSize) / settingsParamSize))) := by
  rcases lt_or_ge pre.length frameHeaderSize with hpre | hpre
  · have hcall : settingsCall env .head c (pre ++ read) = _ :=
      (congrArg (settingsCall env .head c) h).trans
        ((settingsCall_head frame.payload).trans ((stateSettings_eq hflags hdvd _).trans
          (settingsLoop_finish 0 rfl (Nat.dvd_of_mod_eq_zero hdvd))))
    rw [Nat.sub_eq_zero_of_le (Nat.le_of_lt hpre), Nat.zero_div, drop_zero, midway_short hpre,
      deliver, drain_eq_atEnd turnBound_pos, hcall, settled]
    · split <;> simp_all [SettingsFrame.params, SettingsConn.withHead, Turn.atEnd]
    intro h' s' rest hgo
    rw [hcall] at hgo
    split at hgo
    · cases hgo
    · exact settingsFinish_rest hgo
  obtain ⟨body₁, hbody₁, hpayload₁⟩ := exists_body h hpre
  have hparts : frame.params = settingsOf body₁ ++
      settingsOf (body₁.drop (settingsParamSize * (settingsOf body₁).length) ++ read) := by
    rw [SettingsFrame.params, ← hpayload₁, settingsOf_append]
  have hcount : (pre.length - frameHeaderSize) / settingsParamSize = (settingsOf body₁).length := by
    rw [hbody₁, length_append, length_headBytes, Nat.add_sub_cancel_left, length_settingsOf]
  rw [hcount, settled, hparts, drop_left, settingsParams_append, hbody₁, midway_body]
  cases hparams : settingsParams env (c.withHead frame) (settingsOf body₁) with
  | error e => rfl
  | ok c₁ =>
    obtain ⟨hkept, hdvd₁⟩ := kept_of_params hdvd hpayload₁ hparams
    obtain ⟨hwindow, -, -, -⟩ := settingsParams_same hparams
    set kept := body₁.drop (settingsParamSize * (settingsOf body₁).length) with hkeptdef
    have hcall : settingsCall env .settingsParams c₁ (kept ++ read) = _ :=
      settingsLoop_finish 0 (by rw [length_append, hkept]) hdvd₁
    rw [hwindow] at hcall
    simp only [deliver, Except.bind]
    rw [drain_eq_atEnd turnBound_pos, hcall]
    · split <;> simp_all [Turn.atEnd, SettingsConn.withHead]
    intro h' s' rest hgo
    rw [hcall] at hgo
    split at hgo
    · cases hgo
    · exact settingsFinish_rest hgo

theorem feed_midway (reads : List Bytes) (h : pre ++ reads.flatten ++ more = frame.bytes)
    (hmore : more ≠ []) :
    readSettings env (midway env c frame pre) reads =
      midway env c frame (pre ++ reads.flatten) := by
  induction reads generalizing pre with
  | nil => simp [readSettings]
  | cons read reads ih =>
    rw [flatten_cons] at h
    have hread : pre ++ read ++ (reads.flatten ++ more) = frame.bytes := by
      rw [← h]
      simp only [append_assoc]
    rw [readSettings, feed_cons, deliver_midway hflags hdvd hread (by simp [hmore])]
    rw [flatten_cons, ← append_assoc]
    exact ih (by rw [← h]; simp only [append_assoc])

theorem readSettings_eq (reads : List Bytes) (hread : read ≠ [])
    (h : reads.flatten ++ read = frame.bytes) :
    readSettings env (.ready .head c []) (reads ++ [read]) =
      settled env c frame (windowDeltaAfter c.initWindow 0
        (frame.params.drop ((reads.flatten.length - frameHeaderSize) / settingsParamSize))) := by
  have hstart : Waiting.ready .head c [] = midway env c frame [] := (midway_short (by decide)).symm
  rw [readSettings, feed_append, hstart]
  have hfeed : readSettings env (midway env c frame []) reads =
      midway env c frame ([] ++ reads.flatten) :=
    feed_midway hflags hdvd reads (by simpa using h) hread
  rw [readSettings, nil_append] at hfeed
  rw [hfeed, feed_cons, feed_nil, deliver_last hflags hdvd h]

end Params

/-! ## Frames that the header decides -/

theorem deliver_short (h : (pre ++ read).length < frameHeaderSize) :
    deliver (settingsCall env) turnBound (.ready .head c pre) read =
      .ready .head c (pre ++ read) := by
  rw [deliver, drain_eq_atEnd turnBound_pos (by rw [settingsCall_short h]; simp),
    settingsCall_short h]
  rfl

theorem readSettings_refused {e : ErrorCode}
    (hbad : ∀ body, stateSettings env (c.withHead frame) body = .fail e c') (reads : List Bytes)
    (hpre : pre.length < frameHeaderSize) (h : pre ++ reads.flatten = frame.bytes) :
    readSettings env (.ready .head c pre) reads = .failed e c' := by
  induction reads generalizing pre with
  | nil =>
    have hlen := congrArg List.length h
    simp [SettingsFrame.bytes, frameBytes] at hlen
    omega
  | cons read reads ih =>
    rw [flatten_cons, ← append_assoc] at h
    rw [readSettings, feed_cons]
    rcases lt_or_ge (pre ++ read).length frameHeaderSize with hshort | hlong
    · rw [deliver_short hshort]
      exact ih hshort h
    obtain ⟨body, hbody, -⟩ := exists_body h hlong
    have hcall : settingsCall env .head c (pre ++ read) = .fail e c' := by
      rw [hbody, settingsCall_head, hbad]
    rw [deliver, drain_eq_atEnd turnBound_pos (by rw [hcall]; simp), hcall]
    exact feed_failed ..

theorem readSettings_ack (hflags : frame.flags = ackFlag) (hempty : frame.payload = [])
    (reads : List Bytes) (hpre : pre.length < frameHeaderSize)
    (h : pre ++ reads.flatten ++ read = frame.bytes) (hread : read ≠ []) :
    readSettings env (.ready .head c pre) (reads ++ [read]) =
      .ready .head { c.withHead frame with settingsAck := true } [] := by
  induction reads generalizing pre with
  | nil =>
    have hcall : settingsCall env .head c (pre ++ read) =
        .goOn .head { c.withHead frame with settingsAck := true } [] := by
      have hflags' : (c.withHead frame).flags = ackFlag := hflags
      have hzero : (c.withHead frame).length = 0 := by simp [SettingsConn.withHead, hempty]
      rw [show pre ++ read = frame.bytes by simpa using h, SettingsFrame.bytes, frameBytes,
        settingsCall_head, stateSettings, if_pos hflags', if_neg (not_not.mpr hzero), hempty]
    rw [readSettings, nil_append, feed_cons, feed_nil, deliver,
      drain_eq_atEnd turnBound_pos (by rw [hcall]; simp), hcall]
    rfl
  | cons read' reads ih =>
    have hlen := congrArg List.length h
    have hpos := length_pos_iff.mpr hread
    simp only [SettingsFrame.bytes, frameBytes, hempty, flatten_cons, length_append,
      length_headBytes, append_nil] at hlen
    have hshort : (pre ++ read').length < frameHeaderSize := by
      rw [length_append]
      omega
    rw [readSettings, cons_append, feed_cons, deliver_short hshort]
    exact ih hshort (by rw [← h, flatten_cons]; simp only [append_assoc])

/-! ## Exactly when nothing is lost -/

/-- The streams have moved by `delta`; nothing happens to them where it is 0. -/
def WindowsMoved (ev : Events σ) (delta : Int) (nodes nodes' : List StreamNode) : Prop :=
  if delta = 0 then nodes' = nodes else List.Forall₂ (NodeMoved ev delta) nodes nodes'

/-- What a frame is to come to, `w` being where the machine is behind it: the same
as in one read, and, unless it ends the connection, the last initial window of
the frame in force and every stream moved by the same difference. -/
def SettingsDone (env : SettingsEnv σ) (c : SettingsConn σ) (frame : SettingsFrame)
    (w : Waiting SettingsHandler (SettingsConn σ) ErrorCode Byte) : Prop :=
  w = readSettings env (.ready .head c []) [frame.bytes] ∧
    ∀ c', w = .ready .head c' [] →
      c'.initWindow = (lastSetting initWindowSizeSetting frame.params).getD c.initWindow ∧
        WindowsMoved env.toEvents ((c'.initWindow : Int) - c.initWindow) c.nodes c'.nodes

/-- The frame is accepted, and its last initial window, not the one in force, is
complete before its last read, `before` bytes of the frame being read by then. -/
def LosesWindow (env : SettingsEnv σ) (c : SettingsConn σ) (frame : SettingsFrame)
    (before : Nat) : Prop :=
  frame.flags ≠ ackFlag ∧ frame.payload.length % settingsParamSize = 0 ∧
    (∃ c', settingsParams env (c.withHead frame) frame.params = .ok c') ∧
    (env.sendSettingsAck c.rest).2 = .ok ∧
    (∃ v, lastSetting initWindowSizeSetting frame.params = some v ∧ v ≠ c.initWindow) ∧
    lastSetting initWindowSizeSetting
      (frame.params.drop ((before - frameHeaderSize) / settingsParamSize)) = none

theorem lastSetting_append (id : Nat) (ps qs : List (Nat × Nat)) :
    lastSetting id (ps ++ qs) = (lastSetting id qs).or (lastSetting id ps) := by
  induction ps with
  | nil => simp [lastSetting]
  | cons p ps ih => rw [cons_append, lastSetting, ih, lastSetting, Option.or_assoc]

theorem lastSetting_of_drop {id n v : Nat}
    (h : lastSetting id (ps.drop n) = some v) : lastSetting id ps = some v := by
  rw [← take_append_drop n ps, lastSetting_append, h]
  rfl

theorem settingsFinish_ok
    (hfinish : settingsFinish env c d [] = .goOn h c' rest) :
    c'.initWindow = (c.initWindow + d).toNat ∧ WindowsMoved env.toEvents d c.nodes c'.nodes := by
  simp only [settingsFinish] at hfinish
  split at hfinish
  next rest' hack =>
    split at hfinish
    next hd =>
      split at hfinish
      next => cases hfinish
      next hrc =>
        cases hfinish
        refine ⟨rfl, ?_⟩
        rw [WindowsMoved, if_neg hd]
        exact adjustWindows_moves (not_not.mp hrc)
    next hd =>
      obtain rfl := not_not.mp hd
      cases hfinish
      exact ⟨by simp, by rw [WindowsMoved, if_pos rfl]⟩
  next => cases hfinish

theorem initWindow_of_atEnd {kept : Bytes}
    (hend : (settingsFinish env c d []).atEnd = .ready h c' kept) :
    c'.initWindow = (c.initWindow + d).toNat := by
  cases hfinish : settingsFinish env c d [] with
  | goOn h' c₁ rest =>
    rw [hfinish] at hend
    cases hend
    exact (settingsFinish_ok hfinish).1
  | save h' c₁ kept' =>
    simp only [settingsFinish] at hfinish
    repeat' split at hfinish
    all_goals cases hfinish
  | fail e c₁ =>
    rw [hfinish] at hend
    cases hend

theorem settingsFinish_zero (hack : (env.sendSettingsAck c.rest).2 = .ok) :
    settingsFinish env c 0 [] = .goOn .head
      { c with rest := (env.sendSettingsAck c.rest).1 } [] := by
  rw [settingsFinish]
  split
  next rest' heq => simp [heq]
  next rest' rc hne heq => exact absurd (by rw [heq] at hack; exact hack) hne

theorem settingsFinish_refused (hack : (env.sendSettingsAck c.rest).2 ≠ .ok) :
    settingsFinish env c d [] =
      .fail .internalError { c with rest := (env.sendSettingsAck c.rest).1 } := by
  rw [settingsFinish]
  split
  next rest' heq => exact absurd (by rw [heq]) hack
  next rest' rc hne heq => rw [heq]

theorem windowDeltaAfter_drop {w n : Nat}
    (h : windowDeltaAfter w 0 (ps.drop n) ≠ windowDeltaAfter w 0 ps) :
    (∃ v, lastSetting initWindowSizeSetting ps = some v ∧ v ≠ w) ∧
      lastSetting initWindowSizeSetting (ps.drop n) = none := by
  cases hdrop : lastSetting initWindowSizeSetting (ps.drop n) with
  | some v => exact absurd (by simp [windowDeltaAfter, hdrop, lastSetting_of_drop hdrop]) h
  | none =>
    cases hall : lastSetting initWindowSizeSetting ps with
    | none => exact absurd (by simp [windowDeltaAfter, hdrop, hall]) h
    | some v =>
      refine ⟨⟨v, rfl, ?_⟩, rfl⟩
      rintro rfl
      exact h (by simp [windowDeltaAfter, hdrop, hall])

theorem toNat_windowDeltaAfter (w : Nat) (ps : List (Nat × Nat)) :
    ((w : Int) + windowDeltaAfter w 0 ps).toNat =
      (lastSetting initWindowSizeSetting ps).getD w := by
  cases hlast : lastSetting initWindowSizeSetting ps with
  | none => simp [windowDeltaAfter, hlast]
  | some v => simp [windowDeltaAfter, hlast]

theorem settingsDone_settled (hflags : frame.flags ≠ ackFlag)
    (hdvd : frame.payload.length % settingsParamSize = 0) :
    SettingsDone env c frame
      (settled env c frame (windowDeltaAfter c.initWindow 0 frame.params)) := by
  have hne : frame.bytes ≠ [] := by
    simp [SettingsFrame.bytes, frameBytes, headBytes]
  refine ⟨?_, fun c' hready => ?_⟩
  · rw [← nil_append [frame.bytes], readSettings_eq hflags hdvd [] hne (by simp)]
    simp
  rw [settled] at hready
  split at hready
  · cases hready
  next c₁ hparams =>
    obtain ⟨hwindow, hnodes, -, -⟩ := settingsParams_same hparams
    cases hfinish : settingsFinish env c₁ (windowDeltaAfter c.initWindow 0 frame.params) [] with
    | fail e c₂ =>
      rw [hfinish] at hready
      cases hready
    | save h c₂ kept =>
      simp only [settingsFinish] at hfinish
      repeat' split at hfinish
      all_goals cases hfinish
    | goOn h c₂ rest =>
      rw [hfinish] at hready
      cases hready
      obtain ⟨hinit, hmoved⟩ := settingsFinish_ok hfinish
      have hsame : c₁.initWindow = c.initWindow := hwindow
      rw [hsame, toNat_windowDeltaAfter] at hinit
      refine ⟨hinit, ?_⟩
      have hdelta : (c'.initWindow : Int) - c.initWindow =
          windowDeltaAfter c.initWindow 0 frame.params := by
        rw [hinit, windowDeltaAfter]
        cases lastSetting initWindowSizeSetting frame.params <;> simp
      rw [hdelta]
      have hsameNodes : c₁.nodes = c.nodes := hnodes
      rwa [hsameNodes] at hmoved

theorem settingsDone_refused {e : ErrorCode}
    (hbad : ∀ body, stateSettings env (c.withHead frame) body = .fail e c') {reads : List Bytes}
    (h : [] ++ reads.flatten = frame.bytes) :
    SettingsDone env c frame (readSettings env (.ready .head c []) reads) := by
  rw [readSettings_refused hbad reads (by decide) h]
  refine ⟨?_, fun c'' hready => by cases hready⟩
  rw [readSettings_refused hbad [frame.bytes] (by decide) (by simp)]

/-- **SETTINGS frames.**  However a frame is cut into reads, it is done as in one
read, if and only if it does not lose a window: a change of the initial window
is lost where the last read of the frame begins behind it. -/
theorem settings_split_iff (env : SettingsEnv σ) (c : SettingsConn σ) (frame : SettingsFrame)
    (reads : List Bytes) (read : Bytes) (hread : read ≠ [])
    (h : reads.flatten ++ read = frame.bytes) :
    SettingsDone env c frame (readSettings env (.ready .head c []) (reads ++ [read])) ↔
      ¬ LosesWindow env c frame reads.flatten.length := by
  have hshort : ([] : Bytes).length < frameHeaderSize := by decide
  have hwhole : [] ++ (reads ++ [read]).flatten = frame.bytes := by simp [h]
  rcases Decidable.em (frame.flags = ackFlag) with hflags | hflags
  · have hnot : ¬ LosesWindow env c frame reads.flatten.length := fun hloses => hloses.1 hflags
    refine iff_of_true ?_ hnot
    have hflags' : (c.withHead frame).flags = ackFlag := hflags
    rcases Decidable.em (frame.payload = []) with hempty | hempty
    · have hne : frame.bytes ≠ [] := by simp [SettingsFrame.bytes, frameBytes, headBytes]
      have hack := fun (rs : List Bytes) r (hr : [] ++ rs.flatten ++ r = frame.bytes) =>
        @readSettings_ack σ env c frame [] r hflags hempty rs hshort hr
      rw [hack reads read (by simpa using h) hread]
      refine ⟨(hack [] frame.bytes (by simp) hne).symm, fun c' hready => ?_⟩
      cases hready
      simp [SettingsFrame.params, hempty, settingsOf, lastSetting, WindowsMoved,
        SettingsConn.withHead]
    · have hbad : ∀ body, stateSettings env (c.withHead frame) body =
          .fail .sizeError (c.withHead frame) := fun body => by
        have hlen : (c.withHead frame).length ≠ 0 := mt length_eq_zero_iff.mp hempty
        rw [stateSettings, if_pos hflags', if_pos hlen]
      exact settingsDone_refused hbad hwhole
  rcases Decidable.em (frame.payload.length % settingsParamSize = 0) with hdvd | hdvd
  · rw [readSettings_eq hflags hdvd reads hread h]
    set n := (reads.flatten.length - frameHeaderSize) / settingsParamSize with hn
    have hdone := @settingsDone_settled σ env c frame hflags hdvd
    rcases Decidable.em (windowDeltaAfter c.initWindow 0 (frame.params.drop n) =
        windowDeltaAfter c.initWindow 0 frame.params) with hsame | hdiff
    · rw [hsame]
      refine iff_of_true hdone fun hloses => ?_
      obtain ⟨-, -, -, -, ⟨v, hv, hne⟩, hnone⟩ := hloses
      rw [← hn] at hnone
      simp only [windowDeltaAfter, hnone, hv] at hsame
      omega
    obtain ⟨⟨v, hv, hne⟩, hnone⟩ := windowDeltaAfter_drop hdiff
    cases hparams : settingsParams env (c.withHead frame) frame.params with
    | error e =>
      have hnot : ¬ LosesWindow env c frame reads.flatten.length := fun hloses => by
        obtain ⟨-, -, ⟨c', hok⟩, -⟩ := hloses
        rw [hparams] at hok
        cases hok
      rw [settled_error _ hparams] at hdone ⊢
      exact iff_of_true hdone hnot
    | ok c₁ =>
      obtain ⟨hwindow, -, hrest, -⟩ := settingsParams_same hparams
      have hwindow : c₁.initWindow = c.initWindow := hwindow
      have hrest : c₁.rest = c.rest := hrest
      rw [settled_ok _ hparams] at hdone ⊢
      rcases Decidable.em ((env.sendSettingsAck c.rest).2 = .ok) with hack | hack
      · have hloses : LosesWindow env c frame reads.flatten.length :=
          ⟨hflags, hdvd, ⟨c₁, hparams⟩, hack, ⟨v, hv, hne⟩, hnone⟩
        refine iff_of_false (fun hdone' => ?_) (not_not.mpr hloses)
        have heq := hdone'.1.trans hdone.1.symm
        have hzero : windowDeltaAfter c.initWindow 0 (frame.params.drop n) = 0 := by
          rw [windowDeltaAfter, hnone]
        rw [hzero, settingsFinish_zero (hrest ▸ hack)] at heq
        have hinit := initWindow_of_atEnd heq.symm
        rw [hwindow, toNat_windowDeltaAfter, hv] at hinit
        exact hne hinit.symm
      · have hnot : ¬ LosesWindow env c frame reads.flatten.length := fun hloses =>
          hack hloses.2.2.2.1
        rw [settingsFinish_refused (hrest ▸ hack)] at hdone ⊢
        exact iff_of_true hdone hnot
  · have hnot : ¬ LosesWindow env c frame reads.flatten.length := fun hloses => hdvd hloses.2.1
    have hbad : ∀ body, stateSettings env (c.withHead frame) body =
        .fail .sizeError (c.withHead frame) := fun body => by
      have hflags' : (c.withHead frame).flags ≠ ackFlag := hflags
      have hdvd' : (c.withHead frame).length % settingsParamSize ≠ 0 := hdvd
      rw [stateSettings, if_neg hflags', if_pos hdvd']
    exact iff_of_true (settingsDone_refused hbad hwhole) hnot

/-! ## A frame in two reads -/

/-- A program whose event handlers do nothing. -/
def quietEnv : SettingsEnv Unit where
  sendRstStream rest _ _ := (rest, .ok)
  sendSettingsAck rest := (rest, .ok)
  readEvent rest _ s := (rest, some s)
  writeEvent rest _ s := (rest, some s)
  concurrentPushes := 10
  otherFrame _ c pos := .goOn .head c pos

/-- A connection with the windows of `ngx_http_v2_init` and one stream. -/
def oneStreamConn : SettingsConn Unit where
  length := 0
  flags := 0
  sid := 0
  initWindow := defaultWindow
  frameSize := defaultFrameSize
  concurrentPushes := 10
  pushDisabled := false
  tableUpdate := false
  settingsAck := false
  nodes := [⟨1, some ⟨defaultWindow, false, false, false, false, true, false, false⟩⟩]
  rest := ()

/-- `INITIAL_WINDOW_SIZE` 100000 and `HEADER_TABLE_SIZE` 4096. -/
def twoParams : SettingsFrame where
  flags := 0
  sid := 0
  payload := [0, 4, 0, 1, 0x86, 0xa0, 0, 1, 0, 0, 0x10, 0]
  sid_lt := by decide
  length_lt := by decide

/-- The first read ends behind the first parameter: the initial window is still
65535, and the window of the stream has not moved. -/
theorem twoParams_lost :
    readSettings quietEnv (.ready .head oneStreamConn [])
        [twoParams.bytes.take 15, twoParams.bytes.drop 15] =
      .ready .head { oneStreamConn with tableUpdate := true } [] ∧
    ¬ SettingsDone quietEnv oneStreamConn twoParams
        (readSettings quietEnv (.ready .head oneStreamConn [])
          [twoParams.bytes.take 15, twoParams.bytes.drop 15]) := by
  have hread : readSettings quietEnv (.ready .head oneStreamConn [])
      [twoParams.bytes.take 15, twoParams.bytes.drop 15] =
        .ready .head { oneStreamConn with tableUpdate := true } [] := by
    rfl
  refine ⟨hread, fun hdone => ?_⟩
  exact absurd (hdone.2 _ hread).1 (by decide)

/-- In two reads with the cut one byte earlier nothing is lost: the window has its new value, and
the window of the stream has moved with it. -/
theorem twoParams_kept :
    ∃ c, readSettings quietEnv (.ready .head oneStreamConn [])
        [twoParams.bytes.take 14, twoParams.bytes.drop 14] = .ready .head c [] ∧
      c.initWindow = 100000 ∧
      c.nodes = [⟨1, some ⟨100000, false, false, false, false, true, false, false⟩⟩] ∧
      SettingsDone quietEnv oneStreamConn twoParams
        (readSettings quietEnv (.ready .head oneStreamConn [])
          ([twoParams.bytes.take 14] ++ [twoParams.bytes.drop 14])) := by
  refine ⟨_, rfl, rfl, rfl, (settings_split_iff quietEnv oneStreamConn twoParams
    [twoParams.bytes.take 14] (twoParams.bytes.drop 14) (by decide) (by decide)).mpr ?_⟩
  rintro ⟨-, -, -, -, -, hnone⟩
  exact absurd hnone (by decide)

end Nginx.Http.V2
