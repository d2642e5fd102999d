import Mathlib.Data.List.Infix
import Mathlib.Data.List.TakeWhile
import Mathlib.Tactic
import Gopher.Tokens

/-!
# One request of the HTTP server

A request line is read, split into words and answered with a file or with an
error. Strings end at their first zero byte. A copy from no string at all and
a copy that does not fit end the process, and so does, here, a look at a buffer
that was never filled. The file system is a function from names to contents.
-/

set_option autoImplicit false

namespace Gopher.HttpServer
open Gopher.Tokens

/-! ## Strings and streams -/

abbrev CString := List UInt8

def chars (cs : List Char) : CString := cs.map (fun c => c.toNat.toUInt8)

def text (s : String) : CString := chars s.toList

inductive Fault where
  | nullPointer
  | bufferOverflow
  | uninitialized
  deriving DecidableEq

def len : ℕ := 128

def bufSize : ℕ := 1024

def cstr (buf : List UInt8) : CString := buf.takeWhile (fun b => b ≠ 0)

def getLine : ℕ → List UInt8 → List UInt8 × List UInt8
  | 0, stream => ([],stream)
  | _+1, [] => ([],[])
  | n+1, b::stream =>
    if b = 10 then ([b],stream) else (b::(getLine n stream).1,(getLine n stream).2)

def fgets (n : ℕ) (stream : List UInt8) : Option (List UInt8 × List UInt8) :=
  match stream with
  | [] => none
  | b::stream => some (getLine (n-1) (b::stream))

def strcpy (size : ℕ) (src : Option CString) : Except Fault CString :=
  match src with
  | none => .error .nullPointer
  | some s => if s.length < size then .ok s else .error .bufferOverflow

def toLower (b : UInt8) : UInt8 := if 65 ≤ b ∧ b ≤ 90 then b+32 else b

def strcasecmp (s t : CString) : Bool := s.map toLower = t.map toLower

theorem getLine_length (n : ℕ) (stream : List UInt8) :
    (getLine n stream).1.length ≤ n ∧
      (getLine n stream).1++(getLine n stream).2 = stream := by
  induction n generalizing stream with
  | zero => exact ⟨le_rfl,rfl⟩
  | succ n ih =>
    cases stream with
    | nil => exact ⟨Nat.zero_le _,rfl⟩
    | cons b stream =>
      rw [getLine]
      split
      · exact ⟨Nat.succ_le_succ (Nat.zero_le n),rfl⟩
      · exact ⟨Nat.succ_le_succ (ih stream).1,congrArg (b::·) (ih stream).2⟩

theorem fgets_some {n : ℕ} {stream line rest : List UInt8}
    (h : fgets n stream = some (line,rest)) : line.length ≤ n-1 ∧ line++rest = stream := by
  unfold fgets at h
  split at h
  · cases h
  · rename_i b s
    have hline := getLine_length (n-1) (b::s)
    rw [Option.some.inj h] at hline
    exact hline

theorem fgets_shrinks {n : ℕ} (hn : 1 < n) {stream line rest : List UInt8}
    (h : fgets n stream = some (line,rest)) : rest.length < stream.length := by
  unfold fgets at h
  split at h
  · cases h
  · rename_i b s
    obtain ⟨k,hk⟩ : ∃ k, n-1 = k+1 := ⟨n-2,by omega⟩
    rw [hk, getLine] at h
    split at h
    · cases h
      exact Nat.lt_succ_self _
    · cases h
      have := congrArg List.length (getLine_length k s).2
      simp only [List.length_append] at this
      simp only [List.length_cons]
      omega

/-! ## The response -/

def copyLines (homepage : List UInt8) : CString :=
  match _h : fgets bufSize homepage with
  | none => []
  | some (content,rest) => cstr content++copyLines rest
termination_by homepage.length
decreasing_by exact fgets_shrinks (by decide) _h

theorem copyLines_eq (homepage : List UInt8) (h : ∀ b ∈ homepage, b ≠ 0) :
    copyLines homepage = homepage := by
  induction homepage using copyLines.induct with
  | case1 homepage hnone =>
    have hnil : homepage = [] := by
      cases homepage with
      | nil => rfl
      | cons b bs => cases hnone
    rw [copyLines]
    split
    · exact hnil.symm
    · rename_i hsome
      rw [hnone] at hsome
      cases hsome
  | case2 homepage content rest hsome ih =>
    obtain ⟨-,hsplit⟩ := fgets_some hsome
    have hcontent : cstr content = content := by
      rw [cstr, List.takeWhile_eq_self_iff]
      intro b hb
      simpa using h b (hsplit ▸ List.mem_append_left rest hb)
    rw [copyLines]
    split
    · rename_i hnone
      rw [hsome] at hnone
      cases hnone
    · rename_i hsome'
      cases hsome.symm.trans hsome'
      rw [hcontent, ih (fun b hb => h b (hsplit ▸ List.mem_append_right content hb)), hsplit]

theorem copyLines_ne_zero (homepage : List UInt8) : ∀ b ∈ copyLines homepage, b ≠ 0 := by
  induction homepage using copyLines.induct with
  | case1 homepage hnone =>
    rw [copyLines]
    split
    · intro b hb
      cases hb
    · rename_i hsome
      rw [hnone] at hsome
      cases hsome
  | case2 homepage content rest hsome ih =>
    rw [copyLines]
    split
    · intro b hb
      cases hb
    · rename_i hsome'
      cases hsome.symm.trans hsome'
      intro b hb
      rcases List.mem_append.mp hb with hb | hb
      · simpa using List.all_eq_true.mp List.all_takeWhile b hb
      · exact ih b hb

/-- A file is copied as it is exactly when it has no zero byte. -/
theorem copyLines_eq_iff (homepage : List UInt8) :
    copyLines homepage = homepage ↔ ∀ b ∈ homepage, b ≠ 0 := by
  constructor
  · intro h
    rw [← h]
    exact copyLines_ne_zero homepage
  · exact copyLines_eq homepage

def badRequest : CString :=
  text "HTTP/1.1 400 Bad Request\r\n"++text "Server:HTTP Server\r\n"++
    text "Content-Length:2048\r\n"++text "Content-Type:text/html\r\n\r\n"++
    text "<html><head><title>HTTP Server</title></head><body>URI "++
    text "or method error!</body></html>"

def okResponse (ct : CString) (body : CString) : CString :=
  text "HTTP/1.1 200 OK\r\n"++text "Server:HTTP Server\r\n"++text "Content-Length:2048\r\n"++
    (text "Content-Type:"++ct++text "\r\n\r\n")++body

def respHandler (fopen : CString → Option (List UInt8)) (ct path : Option CString) : CString :=
  match path.bind fopen with
  | none => badRequest
  | some homepage => okResponse (ct.getD (text "(null)")) (copyLines homepage)

/-! ## The request -/

def httpSlash : CString := chars ['H','T','T','P','/']

def isSpaceOrSlash (b : UInt8) : Bool := b = 32 ∨ b = 47

def isDot (b : UInt8) : Bool := b = 46

def contentTypeOf (extName : CString) : CString :=
  if extName = chars ['h','t','m','l'] then text "text/html" else text "text/plain"

def getContentType (path saved : CString) : Except Fault CString := do
  let path_ ← strcpy len (some path)
  let first := strtok isDot (some path_) saved
  let second := strtok isDot none first.2
  let extName ← strcpy len second.1
  return contentTypeOf extName

/-- What follows the two words; `saved` is where the last call of `strtok` stopped. -/
def reply (fopen : CString → Option (List UInt8)) (method path saved : CString) :
    Except Fault CString := do
  let ct ← getContentType path saved
  let contentType ← strcpy len (some ct)
  return if strcasecmp method (chars ['G','E','T']) then
      respHandler fopen (some contentType) (some path)
    else respHandler fopen none none

def answer (fopen : CString → Option (List UInt8)) (saved reqLine : CString) :
    Except Fault CString := do
  let first := strtok isSpaceOrSlash (some reqLine) saved
  let method ← strcpy len first.1
  let second := strtok isSpaceOrSlash none first.2
  let path ← strcpy len second.1
  reply fopen method path second.2

def reqHandler (fopen : CString → Option (List UInt8)) (saved : CString)
    (incoming : List UInt8) : Except Fault CString :=
  match fgets len incoming with
  | none => .error .uninitialized
  | some (reqLine,_) =>
    if httpSlash <:+: cstr reqLine then answer fopen saved (cstr reqLine)
    else .ok (respHandler fopen none none)

/-! ## Which lines are answered -/

theorem strcpy_of_lt {s : CString} (h : s.length < len) : strcpy len (some s) = .ok s :=
  if_pos h

def typeOf (path : CString) : CString :=
  if (words isDot path)[1]? = some (chars ['h','t','m','l']) then text "text/html"
  else text "text/plain"

theorem getContentType_cases {path : CString} (hpath : path.length < len) (saved : CString) :
    (words isDot path).length < 2 ∧ getContentType path saved = .error .nullPointer ∨
    2 ≤ (words isDot path).length ∧ getContentType path saved = .ok (typeOf path) := by
  have hrun : getContentType path saved =
      (strcpy len (strtok isDot none (strtok isDot (some path) saved).2).1).map contentTypeOf := by
    unfold getContentType
    rw [strcpy_of_lt hpath]
    rfl
  rw [hrun, typeOf]
  rcases strtok_twice isDot path saved with
    ⟨hwords,-,hext⟩ | ⟨w,hwords,-,hext⟩ | ⟨w,extName,ws,hwords,-,hext⟩
  · rw [hwords, hext]
    exact Or.inl ⟨Nat.zero_lt_two,rfl⟩
  · rw [hwords, hext]
    exact Or.inl ⟨Nat.one_lt_two,rfl⟩
  · have hfits : extName.length < len := by
      have hmem : extName ∈ words isDot path := by simp [hwords]
      exact (length_le_of_mem_words hmem).trans_lt hpath
    rw [hwords, hext, strcpy_of_lt hfits]
    exact Or.inr ⟨by simp,by simp [Except.map, contentTypeOf]⟩

def Served (fopen : CString → Option (List UInt8)) (path : CString)
    (outcome : Except Fault CString) : Prop :=
  outcome = .ok badRequest ∨
    ∃ homepage, fopen path = some homepage ∧ outcome = .ok (okResponse (typeOf path) homepage)

/-- One response: the error, or the file that the second word of the line names. -/
def OneResponse (fopen : CString → Option (List UInt8)) (reqLine : CString)
    (outcome : Except Fault CString) : Prop :=
  outcome = .ok badRequest ∨ ∃ method path others,
    words isSpaceOrSlash reqLine = method::path::others ∧ Served fopen path outcome

def response (fopen : CString → Option (List UInt8)) (method path : CString) : CString :=
  match fopen path with
  | some homepage =>
    if strcasecmp method (chars ['G','E','T']) then okResponse (typeOf path) homepage
    else badRequest
  | none => badRequest

def Plain (fopen : CString → Option (List UInt8)) (method path : CString) : Prop :=
  strcasecmp method (chars ['G','E','T']) = true →
    ∀ homepage, fopen path = some homepage → ∀ b ∈ homepage, b ≠ 0

def NamesFile (fopen : CString → Option (List UInt8)) (reqLine : CString) : Prop :=
  ∃ method path others, words isSpaceOrSlash reqLine = method::path::others ∧
    2 ≤ (words isDot path).length ∧ Plain fopen method path

theorem not_oneResponse_error (fopen : CString → Option (List UInt8)) (reqLine : CString)
    (f : Fault) : ¬OneResponse fopen reqLine (.error f) := by
  rintro (h | ⟨_,_,_,_,h | ⟨_,_,h⟩⟩)
  · cases h
  · cases h
  · cases h

theorem okResponse_ne_badRequest (ct body : CString) : okResponse ct body ≠ badRequest := by
  intro h
  have hten := congrArg (List.take 10) h
  rw [okResponse, badRequest] at hten
  simp only [List.append_assoc] at hten
  rw [List.take_append_of_le_length (by decide), List.take_append_of_le_length (by decide)] at hten
  exact absurd hten (by decide)

theorem okResponse_body (ct body page : CString) (h : okResponse ct body = okResponse ct page) :
    body = page := List.append_cancel_left h

def put (fopen : CString → Option (List UInt8)) (method path : CString) : CString :=
  if strcasecmp method (chars ['G','E','T']) then respHandler fopen (some (typeOf path)) (some path)
  else respHandler fopen none none

theorem put_eq (fopen : CString → Option (List UInt8)) (method path : CString)
    (h : Plain fopen method path) : put fopen method path = response fopen method path := by
  unfold put response respHandler
  cases hopen : fopen path with
  | none => simp [hopen]
  | some homepage =>
    split
    · next hget => simp [hopen, copyLines_eq homepage (h hget homepage hopen)]
    · rfl

theorem response_served (fopen : CString → Option (List UInt8)) (method path : CString) :
    Served fopen path (.ok (response fopen method path)) := by
  unfold response
  split
  · next homepage hopen =>
    split
    · exact Or.inr ⟨homepage,hopen,rfl⟩
    · exact Or.inl rfl
  · exact Or.inl rfl

theorem served_put_iff (fopen : CString → Option (List UInt8)) (method path : CString) :
    Served fopen path (.ok (put fopen method path)) ↔ Plain fopen method path := by
  constructor
  · intro h hget homepage hopen
    have hput : put fopen method path = okResponse (typeOf path) (copyLines homepage) := by
      simp [put, hget, respHandler, hopen]
    rw [hput] at h
    rcases h with h | ⟨page,hpage,h⟩
    · exact absurd (Except.ok.inj h) (okResponse_ne_badRequest _ _)
    · cases hopen.symm.trans hpage
      exact (copyLines_eq_iff homepage).mp (okResponse_body _ _ _ (Except.ok.inj h))
  · intro h
    rw [put_eq fopen method path h]
    exact response_served fopen method path

theorem oneResponse_put_iff {fopen : CString → Option (List UInt8)} {reqLine method path : CString}
    {others : List CString} (hwords : words isSpaceOrSlash reqLine = method::path::others) :
    OneResponse fopen reqLine (.ok (put fopen method path)) ↔ Plain fopen method path := by
  rw [← served_put_iff]
  constructor
  · rintro (h | ⟨_,_,_,hw,h⟩)
    · exact Or.inl h
    · rw [hwords] at hw
      cases hw
      exact h
  · intro h
    exact Or.inr ⟨method,path,others,hwords,h⟩

theorem reply_cases (fopen : CString → Option (List UInt8)) (method : CString) {path : CString}
    (hpath : path.length < len) (saved : CString) :
    (words isDot path).length < 2 ∧ reply fopen method path saved = .error .nullPointer ∨
    2 ≤ (words isDot path).length ∧
      reply fopen method path saved = .ok (put fopen method path) := by
  unfold reply
  rcases getContentType_cases hpath saved with ⟨hshort,herr⟩ | ⟨hlong,hok⟩
  · rw [herr]
    exact Or.inl ⟨hshort,rfl⟩
  · have hfits : (typeOf path).length < len := by
      unfold typeOf
      split <;> decide
    rw [hok]
    show _ ∨ _ ∧ (strcpy len (some (typeOf path))).map _ = _
    rw [strcpy_of_lt hfits]
    exact Or.inr ⟨hlong,rfl⟩

/-- Without a second word there is nothing to copy. -/
theorem answer_eq (fopen : CString → Option (List UInt8)) (saved : CString) {reqLine : CString}
    (hline : reqLine.length < len) :
    (words isSpaceOrSlash reqLine).length < 2 ∧
      answer fopen saved reqLine = .error .nullPointer ∨
    ∃ method path others saved', words isSpaceOrSlash reqLine = method::path::others ∧
      path.length < len ∧ answer fopen saved reqLine = reply fopen method path saved' := by
  have hfits : ∀ w ∈ words isSpaceOrSlash reqLine, w.length < len :=
    fun w hw => (length_le_of_mem_words hw).trans_lt hline
  have hrun : answer fopen saved reqLine =
      (strcpy len (strtok isSpaceOrSlash (some reqLine) saved).1).bind fun method =>
        (strcpy len (strtok isSpaceOrSlash none
          (strtok isSpaceOrSlash (some reqLine) saved).2).1).bind fun path =>
            reply fopen method path (strtok isSpaceOrSlash none
              (strtok isSpaceOrSlash (some reqLine) saved).2).2 := rfl
  rw [hrun]
  rcases strtok_twice isSpaceOrSlash reqLine saved with
    ⟨hwords,hmethod,-⟩ | ⟨method,hwords,hmethod,hpath⟩ |
      ⟨method,path,others,hwords,hmethod,hpath⟩
  · rw [hwords, hmethod]
    exact Or.inl ⟨Nat.zero_lt_two,rfl⟩
  · rw [hmethod, hpath, strcpy_of_lt (hfits method (by simp [hwords])), hwords]
    exact Or.inl ⟨Nat.one_lt_two,rfl⟩
  · have hfit := hfits path (by simp [hwords])
    rw [hmethod, hpath, strcpy_of_lt (hfits method (by simp [hwords])), strcpy_of_lt hfit, hwords]
    exact Or.inr ⟨method,path,others,_,rfl,hfit,rfl⟩

def expected (fopen : CString → Option (List UInt8)) (reqLine : CString) : CString :=
  match words isSpaceOrSlash reqLine with
  | method::path::_ =>
    if httpSlash <:+: reqLine then response fopen method path else badRequest
  | _ => badRequest

theorem answer_oneResponse_iff (fopen : CString → Option (List UInt8)) (saved : CString)
    {reqLine : CString} (hline : reqLine.length < len) (hhttp : httpSlash <:+: reqLine) :
    (OneResponse fopen reqLine (answer fopen saved reqLine) ↔ NamesFile fopen reqLine) ∧
      (NamesFile fopen reqLine → answer fopen saved reqLine = .ok (expected fopen reqLine)) := by
  rcases answer_eq fopen saved hline with
    ⟨hshort,herr⟩ | ⟨method,path,others,saved',hwords,hpath,hreply⟩
  · have hnot : ¬NamesFile fopen reqLine := by
      rintro ⟨_,_,_,hw,-⟩
      rw [hw] at hshort
      simp at hshort
    rw [herr]
    exact ⟨iff_of_false (not_oneResponse_error fopen reqLine _) hnot,fun h => absurd h hnot⟩
  · have hnames : NamesFile fopen reqLine ↔
        2 ≤ (words isDot path).length ∧ Plain fopen method path := by
      constructor
      · rintro ⟨_,_,_,hw,hdots⟩
        rw [hwords] at hw
        cases hw
        exact hdots
      · intro hdots
        exact ⟨method,path,others,hwords,hdots⟩
    rw [hreply, hnames, expected, hwords]
    rcases reply_cases fopen method hpath saved' with ⟨hshort,herr⟩ | ⟨hlong,hput⟩
    · rw [herr]
      exact ⟨iff_of_false (not_oneResponse_error fopen reqLine _) (fun h => by omega),
        fun h => by omega⟩
    · rw [hput, oneResponse_put_iff hwords]
      refine ⟨⟨fun h => ⟨hlong,h⟩,fun h => h.2⟩,fun h => ?_⟩
      rw [put_eq fopen method path h.2]
      simp [hhttp]

/-- One response is sent exactly when the line does not show the protocol before a zero byte, or
names a file and that file, if it is to be sent, has no zero byte; the response is then the
expected one. -/
theorem reqHandler_oneResponse_iff (fopen : CString → Option (List UInt8)) (saved : CString)
    (incoming line rest : List UInt8) (hline : fgets len incoming = some (line,rest)) :
    (OneResponse fopen (cstr line) (reqHandler fopen saved incoming) ↔
      ¬httpSlash <:+: cstr line ∨ NamesFile fopen (cstr line)) ∧
    (¬httpSlash <:+: cstr line ∨ NamesFile fopen (cstr line) →
      reqHandler fopen saved incoming = .ok (expected fopen (cstr line))) := by
  have hlen : (cstr line).length < len := by
    have h1 := (fgets_some hline).1
    have h2 : (cstr line).length ≤ line.length := (List.takeWhile_sublist _).length_le
    simp only [len] at *
    omega
  rw [reqHandler, hline]
  dsimp only
  by_cases hhttp : httpSlash <:+: cstr line
  · rw [if_pos hhttp]
    simpa [hhttp] using answer_oneResponse_iff fopen saved hlen hhttp
  · rw [if_neg hhttp]
    refine ⟨iff_of_true (Or.inl rfl) (Or.inl hhttp),fun _ => ?_⟩
    have hbad : expected fopen (cstr line) = badRequest := by
      unfold expected
      split
      · rw [if_neg hhttp]
      · rfl
    rw [hbad]
    rfl

def getIndex : List UInt8 :=
  chars ['G','E','T',' ','/','i','.','h','t','m','l',' ','H','T','T','P','/','1','\n']

theorem reqHandler_index_html :
    reqHandler (fun _ => some [72,73]) [] getIndex = .ok (okResponse (text "text/html") [72,73]) :=
  ((reqHandler_oneResponse_iff (fun _ => some [72,73]) [] getIndex getIndex [] (by decide)).2
    (Or.inr ⟨chars ['G','E','T'],chars ['i','.','h','t','m','l'],
      [chars ['H','T','T','P'],chars ['1','\n']],by decide,by decide,
      fun _ homepage h => by cases h; simp⟩)).trans (by decide)

/-- The request for the root: its second word is `HTTP`, which has no dot. -/
theorem reqHandler_root_crashes : reqHandler (fun _ => none) []
    (chars ['G','E','T',' ','/',' ','H','T','T','P','/','1','.','1','\r','\n']) =
      .error .nullPointer := by
  decide

end Gopher.HttpServer
