import PsOs.Decimals

/-!
The requests and responses of `handle_client` in `exercise08/task3/server.c`. What the
floating-point library does is a parameter.
-/

namespace PsOs.HttpResponse

open CStrings Decimals

def MAX_BUFFER : ℕ := 1024

/-- `strtod` and the conversion `%.2f`, which writes at most 309 digits in front of the point. -/
structure Doubles (D : Type) where
  strtod : List UInt8 → D
  format : D → CString
  short : ∀ d, (format d).length ≤ 313

variable {D : Type}

inductive Route (D : Type) where
  | index
  | donate (amount : Option D)
  | shutdown
  | other

structure RequestLine where
  method : List UInt8
  path : List UInt8
  deriving DecidableEq

def token (s : List UInt8) : List UInt8 × List UInt8 :=
  let word := s.dropWhile isSpace
  (word.takeWhile (!isSpace ·), word.dropWhile (!isSpace ·))

def requestLine (request : List UInt8) : Option RequestLine :=
  let (method, rest) := token request
  let (path, _) := token rest
  if method ≠ [] ∧ path ≠ [] ∧ method.length < 16 ∧ path.length < 64 then some ⟨method, path⟩
  else none

def donation (fp : Doubles D) (request : List UInt8) : Option D :=
  (strstr (text "Content-Length: ") request).bind fun _ =>
    (strstr (text "\r\n\r\n") request).map fun body => fp.strtod (body.drop 4)

def donateLine : RequestLine := ⟨text "POST", text "/donate"⟩

def route (fp : Doubles D) (request : List UInt8) (line : RequestLine) : Route D :=
  if line = ⟨text "GET", text "/"⟩ then .index
  else if line = donateLine then .donate (donation fp request)
  else if line = ⟨text "POST", text "/shutdown"⟩ then .shutdown
  else .other

def snprintf (size : ℕ) (s : List UInt8) : List UInt8 := s.take (size - 1)

def responseBody : List UInt8 :=
  text "<html><body><h1>Welcome to the server!</h1></body></html>"

def thanks (fp : Doubles D) (donation balance : D) : List UInt8 :=
  text "Thank you very much for donating $" ++ (fp.format donation).bytes ++
    text "! The balance is now $" ++ (fp.format balance).bytes ++ text "."

def respond (fp : Doubles D) (val_read : ℕ) (balance : D) : Route D → List (List UInt8)
  | .index => [snprintf MAX_BUFFER (text "HTTP/1.1 200 OK\r\nContent-Type: text/html\r\n" ++
      text "Content-Length: " ++ decimal responseBody.length ++ text "\r\n\r\n" ++ responseBody)]
  | .donate (some donation) =>
      [snprintf MAX_BUFFER (text "HTTP/1.1 200 OK\r\nContent-Type: text/plain\r\n" ++
        text "Content-Length: " ++ decimal val_read ++ text "\r\n\r\n" ++
          thanks fp donation balance)]
  | .donate none => []
  | .shutdown => [text "HTTP/1.1 200 OK\r\nContent-Length: 0\r\n\r\n"]
  | .other => [text "HTTP/1.1 501 Not Implemented\r\nContent-Length: 0\r\n\r\n"]

def requestText (received : List UInt8) : List UInt8 := (CString.read (received ++ [0])).bytes

/-- What is written before the socket is closed; `none` if `method` or `path` is read without
having been assigned or is written past its end. -/
def handleClient (fp : Doubles D) (balance : D) (received : List UInt8) :
    Option (List (List UInt8)) :=
  (requestLine (requestText received)).map fun line =>
    respond fp received.length balance (route fp (requestText received) line)

def splitHeaders (response : List UInt8) : Option (List UInt8 × List UInt8) :=
  (strstr (text "\r\n\r\n") response).map fun s =>
    (response.take (response.length - s.length), s.drop 4)

def declaredLength (headers : List UInt8) : Option ℕ :=
  (strstr (text "Content-Length: ") headers).map fun s =>
    digitsValue ((s.drop 16).takeWhile isDigit)

def WellFramed (response : List UInt8) : Prop :=
  ∃ headers body, splitHeaders response = some (headers, body) ∧
    declaredLength headers = some body.length

instance (response : List UInt8) : Decidable (WellFramed response) :=
  decidable_of_iff ((splitHeaders response).any fun p => declaredLength p.1 = some p.2.length) (by
    simp [WellFramed, Option.any_eq_true])

section Framing

variable {front : List UInt8} {n : ℕ} {body : List UInt8}

theorem splitHeaders_eq (hblank : Absent (text "\r\n\r\n") front (text "Content-Length: ")) :
    splitHeaders (front ++ text "Content-Length: " ++ decimal n ++ text "\r\n\r\n" ++ body) =
      some (front ++ text "Content-Length: " ++ decimal n, body) := by
  have hdigits : (13 : UInt8) ∉ decimal n := by
    intro h
    have := decimal_digits _ h
    revert this
    decide
  have hfind : strstr (text "\r\n\r\n")
      (front ++ text "Content-Length: " ++ decimal n ++ text "\r\n\r\n" ++ body) =
        some (text "\r\n\r\n" ++ body) := by
    simp only [List.append_assoc]
    rw [strstr_absent hblank (by decide)]
    have hcr : text "\r\n\r\n" = 13 :: [10, 13, 10] := by decide
    rw [hcr, strstr_skip (by decide), strstr_skip hdigits]
    exact strstr_of_prefix (List.prefix_append _ _)
  have hlen : (text "\r\n\r\n").length = 4 := by decide
  simp only [splitHeaders, hfind, Option.map_some, Option.some.injEq, Prod.mk.injEq]
  constructor
  · rw [List.append_assoc _ (text "\r\n\r\n") body, List.length_append, Nat.add_sub_cancel,
      List.take_left']
    rfl
  · exact List.drop_left' hlen

theorem declaredLength_eq (hlength : Absent (text "Content-Length: ") front (text "Content-Length: ")) :
    declaredLength (front ++ text "Content-Length: " ++ decimal n) = some n := by
  have hlen : (text "Content-Length: ").length = 16 := by decide
  rw [declaredLength, List.append_assoc, strstr_absent hlength (by decide),
    strstr_of_prefix (List.prefix_append _ _), Option.map_some, List.drop_left' hlen,
    List.takeWhile_eq_self_iff.mpr decimal_digits, digitsValue_decimal]

theorem wellFramed_iff (hblank : Absent (text "\r\n\r\n") front (text "Content-Length: "))
    (hlength : Absent (text "Content-Length: ") front (text "Content-Length: ")) :
    WellFramed (front ++ text "Content-Length: " ++ decimal n ++ text "\r\n\r\n" ++ body) ↔
      n = body.length := by
  simp only [WellFramed, splitHeaders_eq hblank, Option.some.injEq, Prod.mk.injEq]
  constructor
  · rintro ⟨headers, body', ⟨rfl, rfl⟩, hn⟩
    rw [declaredLength_eq hlength] at hn
    exact Option.some.inj hn
  · rintro rfl
    exact ⟨_, _, ⟨rfl, rfl⟩, declaredLength_eq hlength⟩

theorem wellFramed_empty {response : List UInt8}
    (h : response = front ++ text "Content-Length: " ++ decimal 0 ++ text "\r\n\r\n" ++ [])
    (hblank : Absent (text "\r\n\r\n") front (text "Content-Length: "))
    (hlength : Absent (text "Content-Length: ") front (text "Content-Length: ")) :
    WellFramed response := by
  rw [h, wellFramed_iff hblank hlength]
  rfl

end Framing

theorem snprintf_eq {size : ℕ} {s : List UInt8} (h : s.length < size) : snprintf size s = s :=
  List.take_of_length_le (by omega)

section Routes

variable {fp : Doubles D} {val_read : ℕ} {balance amount : D}

theorem index_framed : ∃ response, respond fp val_read balance .index = [response] ∧
    WellFramed response := by
  refine ⟨_, rfl, ?_⟩
  rw [snprintf_eq (by decide +kernel), wellFramed_iff (by decide +kernel) (by decide +kernel)]

theorem shutdown_framed : ∃ response, respond fp val_read balance .shutdown = [response] ∧
    WellFramed response := by
  have hresponse : text "HTTP/1.1 200 OK\r\nContent-Length: 0\r\n\r\n" =
      text "HTTP/1.1 200 OK\r\n" ++ text "Content-Length: " ++ decimal 0 ++ text "\r\n\r\n" ++ [] := by
    decide +kernel
  exact ⟨_, rfl, wellFramed_empty hresponse (by decide +kernel) (by decide +kernel)⟩

theorem other_framed : ∃ response, respond fp val_read balance .other = [response] ∧
    WellFramed response := by
  have hresponse : text "HTTP/1.1 501 Not Implemented\r\nContent-Length: 0\r\n\r\n" =
      text "HTTP/1.1 501 Not Implemented\r\n" ++ text "Content-Length: " ++ decimal 0 ++
        text "\r\n\r\n" ++ [] := by
    decide +kernel
  exact ⟨_, rfl, wellFramed_empty hresponse (by decide +kernel) (by decide +kernel)⟩

theorem donate_framed_iff (hread : val_read < MAX_BUFFER) :
    (∃ response, respond fp val_read balance (.donate (some amount)) = [response] ∧
      WellFramed response) ↔ val_read = (thanks fp amount balance).length := by
  have hdecimal : (decimal val_read).length ≤ 4 :=
    (length_decimal_le_iff (by decide)).mpr (by unfold MAX_BUFFER at hread; omega)
  have hthanks : (thanks fp amount balance).length ≤ 700 := by
    have hamount := fp.short amount
    have hbalance := fp.short balance
    unfold CString.length at hamount hbalance
    have hfront : (text "Thank you very much for donating $").length = 34 := by decide
    have hmiddle : (text "! The balance is now $").length = 22 := by decide
    have hend : (text ".").length = 1 := by decide
    simp only [thanks, List.length_append]
    omega
  have hheaders : (text "HTTP/1.1 200 OK\r\nContent-Type: text/plain\r\n").length = 43 := by
    decide +kernel
  have hlength : (text "Content-Length: ").length = 16 := by decide
  have hblank : (text "\r\n\r\n").length = 4 := by decide
  have hfits : (text "HTTP/1.1 200 OK\r\nContent-Type: text/plain\r\n" ++ text "Content-Length: " ++
      decimal val_read ++ text "\r\n\r\n" ++ thanks fp amount balance).length < MAX_BUFFER := by
    simp only [List.length_append, MAX_BUFFER]
    omega
  simp only [respond, List.cons.injEq, and_true, exists_eq_left', snprintf_eq hfits]
  exact wellFramed_iff (by decide +kernel) (by decide +kernel)

end Routes

theorem one_framed_response_iff (fp : Doubles D) (balance : D) {received : List UInt8}
    (hread : received.length < MAX_BUFFER) {line : RequestLine}
    (hline : requestLine (requestText received) = some line) :
    (∃ response, handleClient fp balance received = some [response] ∧ WellFramed response) ↔
      (line = donateLine → ∃ amount, donation fp (requestText received) = some amount ∧
        received.length = (thanks fp amount balance).length) := by
  simp only [handleClient, hline, Option.map_some, Option.some.injEq]
  by_cases hdonate : line = donateLine
  · have hroute : route fp (requestText received) line =
        .donate (donation fp (requestText received)) := by
      rw [route, hdonate, if_neg (by decide), if_pos rfl]
    rw [hroute]
    cases donation fp (requestText received) with
    | none => simp [respond, hdonate]
    | some amount =>
      rw [donate_framed_iff hread]
      simp [hdonate]
  · simp only [hdonate, false_imp_iff, iff_true]
    unfold route
    split
    · exact index_framed
    · split
      · exact shutdown_framed
      · exact other_framed

theorem amount_lt (v : ℕ) : v % 1000 < 1000 := Nat.mod_lt v (by decide)

theorem noNul_amount (d : Fin 1000) : 0 ∉ decimal d.val ++ text ".00" := by
  intro h
  rcases List.mem_append.mp h with h | h
  · have := decimal_digits _ h
    revert this
    decide
  · revert h
    decide

def formatAmount (d : Fin 1000) : CString := ⟨decimal d.val ++ text ".00", noNul_amount d⟩

theorem formatAmount_short (d : Fin 1000) : (formatAmount d).length ≤ 313 := by
  have hdecimal : (decimal d.val).length ≤ 3 := (length_decimal_le_iff (by decide)).mpr d.isLt
  have hpoint : (text ".00").length = 3 := by decide
  simp only [formatAmount, CString.length, List.length_append]
  omega

def wholeAmounts : Doubles (Fin 1000) where
  strtod s := ⟨digitsValue (s.takeWhile isDigit) % 1000, amount_lt _⟩
  format := formatAmount
  short := formatAmount_short

def donateRequest : List UInt8 :=
  text "POST /donate HTTP/1.1\r\nContent-Length: 2\r\n\r\n10"

def longDonateRequest : List UInt8 :=
  text "POST /donate HTTP/1.1\r\nHost: localhost:808\r\nContent-Length: 2\r\n\r\n10"

theorem one_framed_response_longDonate :
    ∃ response, handleClient wholeAmounts 10 longDonateRequest = some [response] ∧
      WellFramed response :=
  have hline : requestLine (requestText longDonateRequest) = some donateLine := by decide +kernel
  (one_framed_response_iff wholeAmounts 10 (by decide +kernel) hline).mpr fun _ =>
    ⟨10, by decide +kernel, by decide +kernel⟩

theorem donate_not_framed :
    (∃ response, handleClient wholeAmounts 10 donateRequest = some [response] ∧
      ¬ WellFramed response) ∧
    handleClient wholeAmounts 10 (text "POST /donate HTTP/1.1\r\n\r\n10") = some [] := by
  constructor
  · refine ⟨_, rfl, ?_⟩
    decide +kernel
  · decide +kernel

end PsOs.HttpResponse
