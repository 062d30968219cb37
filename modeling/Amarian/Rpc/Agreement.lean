import Amarian.Rpc.Client
import Amarian.Rpc.Screening
import Mathlib.Data.List.Forall2

/-
  The two halves of the RPC interface agree on the bytes.

  What the client renders the server frames, whole and with
  its body, and lets through exactly when the client knows
  the policy.  What the server renders the client parses,
  and it waits for more at every place short of the end.

  Key definitions include:
    * `Rpc.FieldText`
    * `Rpc.callLines`
    * `Rpc.replyLines`

  Key theorems include:
    * `Rpc.frameRequest_renderCall`
    * `Rpc.screen_callRequest`
    * `Rpc.parseResponse_renderResponse`
    * `Rpc.client_server_agree`
-/

------------------------------------------------------------
-- Numbers
------------------------------------------------------------

namespace Amarian

namespace Rpc

open Incremental

theorem digits_free
    {byte : UInt8}
    (hByte : byte < 48 ∨ 57 < byte)
    (value : Nat) :
    byte ∉ Decimal.digits value := by
  intro hMember
  rcases Decimal.mem_digits hMember with ⟨hLow, hHigh⟩
  rw [UInt8.le_iff_toNat_le] at hLow hHigh
  rw [UInt8.lt_iff_toNat_lt, UInt8.lt_iff_toNat_lt] at hByte
  omega

theorem parseDigits_append
    (limit : Nat)
    (front back : ByteVec)
    (value : Nat) :
    parseDigits limit value (front ++ back) =
      (parseDigits limit value front).bind fun value =>
        parseDigits limit value back := by
  induction front generalizing value with
  | nil => rfl
  | cons byte front ih =>
      rw [List.cons_append, parseDigits, parseDigits]
      split
      · rfl
      · dsimp only
        split
        · rfl
        · exact ih _

/- One digit more is read as long as it stays in bounds. -/
theorem parseDigits_digit
    {limit value digit : Nat}
    (hDigit : digit < 10)
    (hFits : value * 10 + digit ≤ limit) :
    parseDigits limit value [48 + UInt8.ofNat digit] =
      some (value * 10 + digit) := by
  have hByte :
      ∀ digit < 10,
        isDigit (48 + UInt8.ofNat digit) = true ∧
          (48 + UInt8.ofNat digit - 48).toNat = digit := by
    decide
  rcases hByte digit hDigit with ⟨hIs, hValue⟩
  have hRoom : ¬value > (limit - digit) / 10 := by
    rw [gt_iff_lt, Nat.not_lt, Nat.le_div_iff_mul_le
      (by decide)]
    omega
  rw [parseDigits, hIs, hValue]
  simp only [Bool.not_true, Bool.false_eq_true, if_false,
    if_neg hRoom]
  rfl

theorem parseDigits_digits
    {limit value : Nat}
    (hFits : value ≤ limit) :
    parseDigits limit 0 (Decimal.digits value) =
      some value := by
  induction value using Nat.strong_induction_on with
  | h value ih =>
      rcases Nat.lt_or_ge value 10 with hSmall | hLong
      · rw [Decimal.digits_of_lt hSmall]
        have hOne :
            parseDigits limit 0 [48 + UInt8.ofNat value] =
              some (0 * 10 + value) :=
          parseDigits_digit hSmall (by omega)
        rw [hOne, Nat.zero_mul, Nat.zero_add]
      · rw [Decimal.digits_of_le hLong, parseDigits_append,
          ih (value / 10) (by omega) (by omega),
          Option.bind_some, parseDigits_digit
            (Nat.mod_lt _ (by decide)) (by omega)]
        exact congrArg some (by omega)

/- A length that is rendered is the length that is read. -/
theorem parseLength_digits
    {limit value : Nat}
    (hFits : value ≤ limit)
    (hLimit : limit < 10 ^ 20) :
    parseLength (Decimal.digits value) limit =
      some value := by
  have hShort : (Decimal.digits value).length ≤ 20 :=
    Decimal.length_digits_le (by decide)
      (Nat.lt_of_le_of_lt hFits hLimit)
  have hSome := Decimal.digits_ne_nil value
  rw [parseLength, if_neg, parseDigits_digits hFits]
  simp only [Bool.or_eq_true, List.isEmpty_iff,
    decide_eq_true_eq, not_or]
  exact ⟨hSome, Nat.not_lt.mpr hShort⟩

------------------------------------------------------------
-- Header Lines
------------------------------------------------------------

/- A text that trimming and splitting leave as it is. -/
structure FieldText
    (text : ByteVec) : Prop where
  oneLine : OneLine text
  front : ∀ byte ∈ text.head?, isOws byte = false
  back : ∀ byte ∈ text.getLast?, isOws byte = false

theorem dropWhile_of_front
    {text : ByteVec}
    (hFront : ∀ byte ∈ text.head?, isOws byte = false) :
    text.dropWhile isOws = text := by
  cases text with
  | nil => rfl
  | cons byte text =>
      exact List.dropWhile_cons_of_neg
        (by rw [hFront byte rfl]; exact Bool.false_ne_true)

theorem FieldText.trimOws
    {text : ByteVec}
    (hText : FieldText text) :
    Rpc.trimOws (32 :: text) = text := by
  have hBack :
      ∀ byte ∈ text.reverse.head?, isOws byte = false := by
    rw [List.head?_reverse]
    exact hText.back
  rw [Rpc.trimOws, List.dropWhile_cons_of_pos (by decide),
    dropWhile_of_front hText.front, dropWhile_of_front hBack,
    List.reverse_reverse]

theorem splitAtByte_append
    {byte : UInt8}
    {before : ByteVec}
    (hBefore : byte ∉ before)
    (after : ByteVec) :
    splitAtByte byte (before ++ byte :: after) =
      some (before, after) := by
  have hOther : ∀ other ∈ before, decide (other ≠ byte) = true := by
    intro other hMember
    rw [decide_eq_true_eq]
    rintro rfl
    exact hBefore hMember
  rw [splitAtByte, if_pos (by simp),
    List.takeWhile_append_of_pos hOther,
    List.dropWhile_append_of_pos hOther]
  simp

/- A header as both halves write one. -/
def headerLine
    (name value : ByteVec) : ByteVec :=
  name ++ asciiBytes ": " ++ value

theorem headerLine_eq
    (name value : ByteVec) :
    headerLine name value = name ++ 58 :: 32 :: value := by
  rw [headerLine, List.append_assoc]
  rfl

theorem parseHeaderLine_headerLine
    {name value : ByteVec}
    (hName : isTokenName name = true)
    (hValue : FieldText value) :
    parseHeaderLine (headerLine name value) =
      some (name, value) := by
  have hToken := hName
  rw [isTokenName, Bool.and_eq_true, List.all_eq_true]
    at hToken
  have hColon : 58 ∉ name := by
    intro hMember
    exact absurd (hToken.2 58 hMember) (by decide)
  cases name with
  | nil => cases hName
  | cons byte name =>
      have hFirst : isOws byte = false := by
        cases hOws : isOws byte with
        | false => rfl
        | true =>
            rw [isOws, decide_eq_true_eq] at hOws
            have hByte := hToken.2 byte List.mem_cons_self
            rcases hOws with rfl | rfl
            · exact absurd hByte (by decide)
            · exact absurd hByte (by decide)
      have hSplit := splitAtByte_append hColon (32 :: value)
      rw [← headerLine_eq] at hSplit
      unfold parseHeaderLine
      rw [hSplit]
      simp only [headerLine_eq, List.cons_append, hFirst,
        hName, hValue.trimOws, Bool.not_true,
        Bool.false_eq_true, if_false]

/- No blank and no control byte: a field as it stands. -/
theorem FieldText.of_visible
    {text : ByteVec}
    (hText : ∀ byte ∈ text, 32 < byte) :
    FieldText text := by
  have hSolid : ∀ byte ∈ text, isOws byte = false := by
    intro byte hMember
    have hByte := hText byte hMember
    rw [isOws, decide_eq_false_iff_not]
    rintro (rfl | rfl)
    · exact absurd hByte (by decide)
    · exact absurd hByte (by decide)
  exact
    { oneLine :=
        ⟨fun hMember => absurd (hText 13 hMember) (by decide),
          fun hMember => absurd (hText 10 hMember) (by decide)⟩
      front := fun byte hByte =>
        hSolid byte (List.mem_of_head? hByte)
      back := fun byte hByte =>
        hSolid byte (List.mem_of_getLast? hByte) }

theorem digits_visible
    (value : Nat) :
    ∀ byte ∈ Decimal.digits value, 32 < byte := by
  intro byte hMember
  have hLow := (Decimal.mem_digits hMember).1
  rw [UInt8.le_iff_toNat_le] at hLow
  rw [UInt8.lt_iff_toNat_lt]
  exact Nat.lt_of_lt_of_le (by decide) hLow

------------------------------------------------------------
-- Hosts
------------------------------------------------------------

theorem rfind_append
    {byte : UInt8}
    {back : ByteVec}
    (hBack : byte ∉ back)
    (front : ByteVec) :
    rfind byte (front ++ byte :: back) =
      some front.length := by
  have hReverse : byte ∉ back.reverse := by
    rwa [List.mem_reverse]
  rw [rfind, if_pos (by simp), List.reverse_append,
    List.reverse_cons, List.append_assoc,
    List.idxOf_append_of_notMem hReverse,
    List.singleton_append, List.idxOf_cons_self,
    List.length_append, List.length_cons, List.length_reverse]
  exact congrArg some (by omega)

theorem rfind_of_notMem
    {byte : UInt8}
    {text : ByteVec}
    (hText : byte ∉ text) :
    rfind byte text = none :=
  if_neg hText

/- The colon before the port is the one that separates it. -/
theorem hasPort_host
    {host : ByteVec}
    (hHost : isLoopbackName host = true)
    (port : Nat) :
    hasPort (host ++ 58 :: Decimal.digits port)
      host.length = true := by
  have hBracket : 93 ∉ Decimal.digits port :=
    digits_free (by decide) port
  have hAfter : 93 ∉ 58 :: Decimal.digits port := by
    rw [List.mem_cons, not_or]
    exact ⟨by decide, hBracket⟩
  rw [isLoopbackName, decide_eq_true_eq] at hHost
  rcases hHost with rfl | rfl | rfl
  · rw [hasPort, rfind_of_notMem (by
      rw [List.mem_append, not_or]
      exact ⟨by decide, hAfter⟩)]
    rfl
  · rw [hasPort, rfind_of_notMem (by
      rw [List.mem_append, not_or]
      exact ⟨by decide, hAfter⟩)]
    rfl
  · have hSplit :
        asciiBytes "[::1]" ++ 58 :: Decimal.digits port =
          asciiBytes "[::1" ++
            93 :: 58 :: Decimal.digits port := by
      rfl
    rw [hSplit, hasPort, rfind_append hAfter]
    rfl

/- A loopback name passes with the port and with no other. -/
theorem isLoopbackHost_iff
    {host : ByteVec}
    (hHost : isLoopbackName host = true)
    (given port : UInt16) :
    isLoopbackHost
        (host ++ 58 :: Decimal.digits given.toNat) port =
      decide (given = port) := by
  have hColon : 58 ∉ Decimal.digits given.toNat :=
    digits_free (by decide) given.toNat
  have hSmall : given.toNat ≤ 65535 :=
    Nat.le_of_lt_succ given.toNat_lt
  have hRead := parseLength_digits hSmall (by decide)
  have hAfter :
      (host ++ 58 :: Decimal.digits given.toNat).drop
          (host.length + 1) =
        Decimal.digits given.toNat := by
    rw [← List.drop_drop, List.drop_left]
    rfl
  rw [isLoopbackHost, rfind_append hColon]
  dsimp only
  rw [if_pos (hasPort_host hHost _), hAfter, hRead]
  dsimp only
  rw [List.take_left, hHost, Bool.and_true,
    UInt16.ofNat_toNat]

/- The comparison is slow and it is equality. -/
theorem constantTimeEquals_iff
    (left right : ByteVec) :
    constantTimeEquals left right = true ↔ left = right := by
  have hFold :
      ∀ (pairs : List (UInt8 × UInt8)) (diff : UInt8),
        pairs.foldl
              (fun diff pair => diff ||| (pair.1 ^^^ pair.2))
              diff =
            0 ↔
          diff = 0 ∧ ∀ pair ∈ pairs, pair.1 = pair.2 := by
    intro pairs
    induction pairs with
    | nil => simp
    | cons pair pairs ih =>
        intro diff
        rw [List.foldl_cons, ih, UInt8.or_eq_zero_iff,
          UInt8.xor_eq_zero_iff, List.forall_mem_cons,
          and_assoc]
  rw [constantTimeEquals, decide_eq_true_eq, hFold]
  rw [← List.forall₂_eq_eq_eq, List.forall₂_iff_zip]
  refine and_congr ?_ ?_
  · by_cases hSame : left.length = right.length
    · simp [hSame]
    · simp [hSame]
  · exact ⟨fun hPairs first second hPair =>
      hPairs (first, second) hPair,
      fun hPairs pair hPair => hPairs hPair⟩

------------------------------------------------------------
-- The Call
------------------------------------------------------------

section Call

variable {authorization host body : ByteVec} {port : UInt16}

/- The headers of a call, in the order they are written. -/
def callHeaders
    (authorization host : ByteVec)
    (port : UInt16)
    (body : ByteVec) : List (ByteVec × ByteVec) :=
  [(asciiBytes "Host",
      host ++ 58 :: Decimal.digits port.toNat),
    (asciiBytes "Authorization", authorization),
    (asciiBytes "Content-Type",
      asciiBytes "application/json"),
    (asciiBytes "Connection", asciiBytes "close"),
    (asciiBytes "Content-Length",
      Decimal.digits body.length)]

def callLines
    (authorization host : ByteVec)
    (port : UInt16)
    (body : ByteVec) : List ByteVec :=
  asciiBytes "POST / HTTP/1.1" ::
    (callHeaders authorization host port body).map
      fun header => headerLine header.1 header.2

def callRequest
    (authorization host : ByteVec)
    (port : UInt16)
    (body : ByteVec) : HttpRequest :=
  { method := asciiBytes "POST"
    target := asciiBytes "/"
    headers := callHeaders authorization host port body
    body }

theorem renderCall_eq
    (authorization host : ByteVec)
    (port : UInt16)
    (body : ByteVec) :
    renderCall authorization host port body =
      joinLines (callLines authorization host port body) ++
        (headerTerminator ++ body) := by
  simp only [renderCall, callLines, callHeaders, joinLines,
    headerLine, List.map_cons, List.map_nil,
    List.append_assoc, List.cons_append]
  rfl

/- Every value is a field, and every name is a token. -/
theorem callHeaders_fields
    (hHost : isLoopbackName host = true)
    (hAuthorization : FieldText authorization) :
    ∀ header ∈ callHeaders authorization host port body,
      isTokenName header.1 = true ∧ FieldText header.2 := by
  have hVisible : ∀ byte ∈ host, 32 < byte := by
    rw [isLoopbackName, decide_eq_true_eq] at hHost
    rcases hHost with rfl | rfl | rfl
    · decide +kernel
    · decide +kernel
    · decide +kernel
  have hPort :
      FieldText
        (host ++ 58 :: Decimal.digits port.toNat) := by
    refine .of_visible ?_
    intro byte hByte
    rw [List.mem_append, List.mem_cons] at hByte
    rcases hByte with hName | rfl | hDigit
    · exact hVisible byte hName
    · decide
    · exact digits_visible _ byte hDigit
  have hLength : FieldText (Decimal.digits body.length) :=
    .of_visible (digits_visible _)
  have hType : FieldText (asciiBytes "application/json") :=
    .of_visible (by decide +kernel)
  have hClose : FieldText (asciiBytes "close") :=
    .of_visible (by decide +kernel)
  rw [callHeaders]
  simp only [List.forall_mem_cons, List.not_mem_nil,
    false_imp_iff, implies_true, and_true]
  exact ⟨⟨by decide, hPort⟩, ⟨by decide, hAuthorization⟩,
    ⟨by decide, hType⟩, ⟨by decide, hClose⟩,
    ⟨by decide, hLength⟩⟩

theorem headerLine_ne_nil
    (name value : ByteVec) :
    headerLine name value ≠ [] := by
  rw [headerLine_eq]
  simp

theorem headerLine_free
    {name value : ByteVec}
    (hName : isTokenName name = true)
    (hValue : FieldText value) :
    13 ∉ headerLine name value := by
  have hToken := (oneLine_of_token hName).1
  rw [headerLine_eq, List.mem_append, List.mem_cons,
    List.mem_cons]
  rintro (hHere | hHere | hHere | hHere)
  · exact hToken hHere
  · exact absurd hHere (by decide)
  · exact absurd hHere (by decide)
  · exact hValue.oneLine.1 hHere

/- Header lines are read back as the headers they are of. -/
theorem parseHeaderLines_map
    {headers : List (ByteVec × ByteVec)}
    (hHeaders :
      ∀ header ∈ headers,
        isTokenName header.1 = true ∧
          FieldText header.2) :
    parseHeaderLines
        (headers.map fun header =>
          headerLine header.1 header.2) =
      some headers := by
  induction headers with
  | nil => rfl
  | cons header headers ih =>
      rw [List.forall_mem_cons] at hHeaders
      have hSome :
          ¬(headerLine header.1 header.2).isEmpty = true := by
        rw [List.isEmpty_iff]
        exact headerLine_ne_nil _ _
      rw [List.map_cons, parseHeaderLines, if_neg hSome,
        parseHeaderLine_headerLine hHeaders.1.1
          hHeaders.1.2, ih hHeaders.2]
      rfl

theorem callLines_free
    (hHost : isLoopbackName host = true)
    (hAuthorization : FieldText authorization) :
    ∀ line ∈ callLines authorization host port body,
      line ≠ [] ∧ 13 ∉ line := by
  rw [callLines, List.forall_mem_cons, List.forall_mem_map]
  refine ⟨by decide, ?_⟩
  intro header hHeader
  rcases callHeaders_fields hHost hAuthorization header
    hHeader with ⟨hName, hValue⟩
  exact ⟨headerLine_ne_nil _ _, headerLine_free hName hValue⟩

theorem readHead_callLines
    (hBody : body.length ≤ maxRequestBytes)
    (hHost : isLoopbackName host = true)
    (hAuthorization : FieldText authorization) :
    readHead
        (joinLines
          (callLines authorization host port body)) =
      .ok
        ({ callRequest authorization host port body with
            body := [] },
          body.length) := by
  have hLines : ∀ line ∈
      callLines authorization host port body, 13 ∉ line :=
    fun line hLine =>
      (callLines_free hHost hAuthorization line hLine).2
  have hFirst :
      parseRequestLine (asciiBytes "POST / HTTP/1.1") =
        some (asciiBytes "POST", asciiBytes "/") := by
    decide
  have hFields := @callHeaders_fields authorization host
    body port hHost hAuthorization
  have hHeaders := parseHeaderLines_map hFields
  have hHead :
      parseHead
          (joinLines
            (callLines authorization host port body)) =
        some
          { callRequest authorization host port body with
            body := [] } := by
    unfold parseHead
    rw [callLines] at hLines ⊢
    rw [splitLines_joinLines hLines]
    dsimp only
    rw [hFirst, hHeaders]
    rfl
  have hLength := parseLength_digits hBody (by decide)
  rw [readHead, hHead]
  dsimp only
  rw [if_neg, if_neg]
  · have hText :
        HttpRequest.header
            { callRequest authorization host port body with
              body := [] }
            (asciiBytes "Content-Length") =
          some (Decimal.digits body.length) := by
      rfl
    rw [hText, Option.getD_some, hLength]
  · exact not_not.mpr rfl
  · exact not_not.mpr rfl

/- The server frames all of a call, and nothing else. -/
theorem frameRequest_renderCall
    (hBody : body.length ≤ maxRequestBytes)
    (hHost : isLoopbackName host = true)
    (hAuthorization : FieldText authorization)
    (hHead :
      (renderCall authorization host port body).length ≤
        maxHeaderBytes + headerTerminator.length +
          body.length) :
    frameRequest (renderCall authorization host port body) =
      { state := .complete
        request := callRequest authorization host port body
        consumed :=
          (renderCall authorization host port
            body).length } := by
  have hFind :
      find headerTerminator
          (joinLines
              (callLines authorization host port body) ++
            (headerTerminator ++ body)) =
        some
          (joinLines
            (callLines authorization host port
              body)).length :=
    find_joinLines (callLines_free hHost hAuthorization) body
  have hRead := @readHead_callLines authorization host body
    port hBody hHost hAuthorization
  have hCall := renderCall_eq authorization host port body
  rw [hCall] at hHead ⊢
  generalize
    joinLines (callLines authorization host port body) = head
    at hHead hFind hRead ⊢
  rw [List.length_append, List.length_append] at hHead ⊢
  have hTerminator : headerTerminator.length = 4 := rfl
  rw [frameRequest_found hFind (by omega), List.take_left,
    hRead]
  dsimp only
  rw [readBody, if_neg]
  · rw [← List.append_assoc, List.drop_left'
      (by rw [List.length_append, hTerminator]),
      List.take_length, hTerminator, Nat.add_assoc]
    rfl
  · rw [List.length_append, List.length_append]
    omega

/- The request is let through to those who know the policy. -/
theorem screen_callRequest
    (hHost : isLoopbackName host = true)
    (policy : AuthPolicy) :
    screen (callRequest authorization host port body)
          policy =
        none ↔
      authorization = policy.expectedAuthorization ∧
        port = policy.port := by
  generalize hRequest :
    callRequest authorization host port body = request
  have hCredentials :
      request.countHeader (asciiBytes "Authorization") = 1 ∧
        request.header (asciiBytes "Authorization") =
          some authorization := by
    rw [← hRequest]
    exact ⟨rfl, rfl⟩
  have hPlace :
      request.countHeader (asciiBytes "Host") = 1 ∧
        request.header (asciiBytes "Host") =
          some (host ++ 58 :: Decimal.digits port.toNat) := by
    rw [← hRequest]
    exact ⟨rfl, rfl⟩
  have hLine :
      request.method = asciiBytes "POST" ∧
        request.target = asciiBytes "/" := by
    rw [← hRequest]
    exact ⟨rfl, rfl⟩
  have hType :
      request.header (asciiBytes "Content-Type") =
        some (asciiBytes "application/json") := by
    rw [← hRequest]
    rfl
  have hMedia :
      iequals
          (trimOws
            ((asciiBytes "application/json").takeWhile
              (· ≠ 59)))
          (asciiBytes "application/json") =
        true := by
    decide
  rw [screen, hCredentials.1, hCredentials.2, hPlace.1,
    hPlace.2, hLine.1, hLine.2, hType]
  have hHere := isLoopbackHost_iff hHost port policy.port
  simp only [Option.getD_some, hHere, hMedia]
  rw [← constantTimeEquals_iff authorization]
  by_cases hKnown :
      constantTimeEquals authorization
          policy.expectedAuthorization =
        true
  · simp [hKnown]
  · simp [hKnown]

end Call

------------------------------------------------------------
-- The Reply
------------------------------------------------------------

section Reply

/- The header lines of a reply after its status line. -/
def replyHeaders
    (status : HttpStatus)
    (length : Nat) : List ByteVec :=
  [headerLine (asciiBytes "Content-Type")
      defaultContentType,
    headerLine (asciiBytes "Content-Length")
      (Decimal.digits length),
    headerLine (asciiBytes "Connection")
      (asciiBytes "close"),
    headerLine (asciiBytes "X-Content-Type-Options")
      (asciiBytes "nosniff")] ++
    if status = .unauthorized then
      [headerLine (asciiBytes "WWW-Authenticate")
        (asciiBytes "Basic realm=\"amarian\"")]
    else
      []

def statusLine
    (status : HttpStatus) : ByteVec :=
  asciiBytes "HTTP/1.1 " ++ Decimal.digits status.code ++
    asciiBytes " " ++ asciiBytes status.reasonPhrase

theorem renderResponse_eq
    (status : HttpStatus)
    (body : ByteVec) :
    renderResponse status body =
      joinLines
          (statusLine status ::
            replyHeaders status body.length) ++
        (headerTerminator ++ body) := by
  by_cases hStatus : status = .unauthorized
  · simp only [renderResponse, statusLine, replyHeaders,
      joinLines, headerLine, hStatus, if_true,
      List.append_assoc, List.cons_append, List.nil_append]
    rfl
  · simp only [renderResponse, statusLine, replyHeaders,
      joinLines, headerLine, hStatus, if_false,
      List.append_assoc, List.cons_append, List.nil_append]
    rfl

theorem parseStatusLine_statusLine
    (status : HttpStatus) :
    parseStatusLine (statusLine status) =
      .ok status.code := by
  cases status <;> decide

theorem replyLines_free
    (status : HttpStatus)
    (length : Nat) :
    ∀ line ∈ statusLine status :: replyHeaders status length,
      line ≠ [] ∧ 13 ∉ line := by
  have hNumber : 13 ∉
      headerLine (asciiBytes "Content-Length")
        (Decimal.digits length) :=
    headerLine_free (by decide)
      (.of_visible (digits_visible length))
  have hFirst :
      statusLine status ≠ [] ∧ 13 ∉ statusLine status := by
    cases status <;> decide
  rw [List.forall_mem_cons]
  refine ⟨hFirst, ?_⟩
  rw [replyHeaders, List.forall_mem_append]
  constructor
  · simp only [List.forall_mem_cons, List.not_mem_nil,
      false_imp_iff, implies_true, and_true]
    exact ⟨⟨by decide, by decide⟩,
      ⟨headerLine_ne_nil _ _, hNumber⟩,
      ⟨by decide, by decide⟩, ⟨by decide, by decide⟩⟩
  · split
    · decide
    · exact nofun

theorem readLength_replyHeaders
    (status : HttpStatus)
    {length : Nat}
    (hLength : length ≤ maxResponseBytes) :
    readLength (replyHeaders status length) =
      .ok (some length) := by
  have hNumber :
      announcedLength
          (headerLine (asciiBytes "Content-Length")
            (Decimal.digits length)) =
        some (some length) := by
    have hName : 58 ∉ asciiBytes "Content-Length" := by
      decide
    have hSplit := splitAtByte_append hName
      (32 :: Decimal.digits length)
    have hField :=
      FieldText.of_visible (digits_visible length)
    rw [announcedLength, headerLine_eq, hSplit]
    dsimp only
    rw [if_pos (by decide), hField.trimOws,
      parseLength_digits hLength (by decide)]
  have hType :
      announcedLength
          (headerLine (asciiBytes "Content-Type")
            defaultContentType) =
        none := by
    decide
  have hRest :
      ([headerLine (asciiBytes "Connection")
            (asciiBytes "close"),
          headerLine (asciiBytes "X-Content-Type-Options")
            (asciiBytes "nosniff")] ++
        if status = .unauthorized then
          [headerLine (asciiBytes "WWW-Authenticate")
            (asciiBytes "Basic realm=\"amarian\"")]
        else
          []).filterMap announcedLength =
        [] := by
    split
    · decide
    · decide
  have hAll :
      (replyHeaders status length).filterMap
          announcedLength =
        [some length] := by
    rw [replyHeaders, List.cons_append, List.cons_append,
      List.filterMap_cons_none hType,
      List.filterMap_cons_some hNumber, hRest]
  rw [readLength, hAll]

theorem readReplyHead_replyLines
    (status : HttpStatus)
    {length : Nat}
    (hLength : length ≤ maxResponseBytes) :
    readReplyHead
        (joinLines
          (statusLine status :: replyHeaders status length)) =
      .ok (status.code, some length) := by
  have hLines := replyLines_free status length
  rw [readReplyHead, splitLines_joinLines
    fun line hLine => (hLines line hLine).2]
  dsimp only
  rw [parseStatusLine_statusLine,
    readLength_replyHeaders status hLength]
  rfl

theorem length_joinLines_le
    {first : ByteVec}
    {lines : List ByteVec}
    {size : Nat}
    (hLines : ∀ line ∈ first :: lines, line.length ≤ size) :
    (joinLines (first :: lines)).length ≤
      (lines.length + 1) * (size + 2) := by
  induction lines generalizing first with
  | nil =>
      have hFirst := hLines first List.mem_cons_self
      rw [joinLines, List.length_nil]
      omega
  | cons next lines ih =>
      rw [List.forall_mem_cons] at hLines
      have hRest := ih hLines.2
      rw [joinLines, List.length_append, List.length_cons,
        List.length_cons, List.length_cons,
        Nat.succ_mul (lines.length + 1)]
      omega

/- The header section of a reply is a short text. -/
theorem length_replyLines
    (status : HttpStatus)
    {length : Nat}
    (hLength : length ≤ maxResponseBytes) :
    (joinLines
        (statusLine status ::
          replyHeaders status length)).length ≤
      1024 := by
  have hDigits : (Decimal.digits length).length ≤ 20 :=
    Decimal.length_digits_le (by decide)
      (Nat.lt_of_le_of_lt hLength (by decide))
  have hFirst : (statusLine status).length ≤ 100 := by
    cases status <;> decide
  have hNumber :
      (headerLine (asciiBytes "Content-Length")
        (Decimal.digits length)).length ≤ 100 := by
    have hName : (asciiBytes "Content-Length").length = 14 :=
      rfl
    rw [headerLine_eq, List.length_append, List.length_cons,
      List.length_cons, hName]
    omega
  have hLines : ∀ line ∈
      statusLine status :: replyHeaders status length,
      line.length ≤ 100 := by
    rw [List.forall_mem_cons]
    refine ⟨hFirst, ?_⟩
    rw [replyHeaders, List.forall_mem_append]
    constructor
    · simp only [List.forall_mem_cons, List.not_mem_nil,
        false_imp_iff, implies_true, and_true]
      exact ⟨by decide, hNumber, by decide, by decide⟩
    · split
      · decide
      · exact nofun
  have hCount : (replyHeaders status length).length ≤ 5 := by
    rw [replyHeaders, List.length_append]
    split
    · exact Nat.le_refl _
    · exact Nat.le_succ _
  have hAll := length_joinLines_le hLines
  omega

/- The client parses a reply, and no front of it. -/
theorem parseResponse_renderResponse
    (status : HttpStatus)
    {body : ByteVec}
    (hBody : body.length ≤ maxResponseBytes) :
    parseResponse (renderResponse status body) =
        { state := .complete, status := status.code, body } ∧
      ∀ front,
        front <+: renderResponse status body →
          front ≠ renderResponse status body →
            parseResponse front = {} := by
  have hFind := find_joinLines
    (replyLines_free status body.length) body
  have hRead := readReplyHead_replyLines status hBody
  have hShort := length_replyLines status hBody
  rw [renderResponse_eq]
  generalize
    joinLines
        (statusLine status ::
          replyHeaders status body.length) = head
    at hFind hRead hShort ⊢
  have hTerminator : headerTerminator.length = 4 := rfl
  constructor
  · rw [parseResponse, split, hFind]
    dsimp only
    rw [List.take_left, hRead]
    dsimp only
    rw [readReplyBody, if_neg]
    · rw [← List.append_assoc, List.drop_left'
        (by rw [List.length_append]), List.take_length]
    · rw [List.length_append, List.length_append]
      omega
  · intro front hFront hOther
    have hLess := hFront.length_le
    have hProper :
        front.length ≠
          (head ++ (headerTerminator ++ body)).length :=
      fun hSame => hOther (hFront.eq_of_length hSame)
    rw [parseResponse, split]
    cases hSearch : find headerTerminator front with
    | none =>
        have hCut : front.length < head.length + 4 := by
          by_contra hLong
          have hFound := find_prefix (List.cons_ne_nil _ _)
            hFind hFront (Nat.not_lt.mp hLong)
          cases hSearch.symm.trans hFound
        dsimp only
        rw [if_neg]
        · rfl
        · rw [maxResponseBytes]
          omega
    | some headerEnd =>
        rcases hFront with ⟨rest, hWhole⟩
        have hSame := find_append hSearch rest
        rw [hWhole, hFind, Option.some_inj] at hSame
        have hFits := find_fits hSearch
        have hCut :
            (front ++ rest).take headerEnd =
              front.take headerEnd :=
          List.take_append_of_le_length (by omega)
        have hHead : front.take headerEnd = head := by
          rw [← hCut, hWhole, ← hSame, List.take_left]
        dsimp only
        rw [hHead, hRead]
        rw [List.length_append, List.length_append]
          at hLess hProper
        dsimp only
        rw [readReplyBody, if_pos (by omega)]
        rfl

end Reply

------------------------------------------------------------
-- Both Ways
------------------------------------------------------------

/-
  The header section of a call is what it has before the
  blank line and the body.
-/
theorem client_server_agree :
    (∀ (authorization host body : ByteVec) (port : UInt16),
      body.length ≤ maxRequestBytes →
        isLoopbackName host = true →
          FieldText authorization →
            (renderCall authorization host port body).length ≤
                maxHeaderBytes + headerTerminator.length +
                  body.length →
              let call :=
                renderCall authorization host port body
              (frameRequest call).state = .complete ∧
                (frameRequest call).consumed = call.length ∧
                (frameRequest call).request.body = body ∧
                ∀ policy,
                  screen (frameRequest call).request policy =
                      none ↔
                    authorization =
                        policy.expectedAuthorization ∧
                      port = policy.port) ∧
      ∀ (status : HttpStatus) (body : ByteVec),
        body.length ≤ maxResponseBytes →
          let reply := renderResponse status body
          (parseResponse reply).state = .complete ∧
            (parseResponse reply).status = status.code ∧
            (parseResponse reply).body = body ∧
            ∀ front,
              front <+: reply →
                front ≠ reply →
                  (parseResponse front).state =
                    .needMore := by
  constructor
  · intro authorization host body port hBody hHost
      hAuthorization hHead
    have hFramed := frameRequest_renderCall hBody hHost
      hAuthorization hHead
    dsimp only
    rw [hFramed]
    exact ⟨rfl, rfl, rfl, screen_callRequest hHost⟩
  · intro status body hBody
    rcases parseResponse_renderResponse status hBody with
      ⟨hWhole, hFronts⟩
    dsimp only
    rw [hWhole]
    refine ⟨rfl, rfl, rfl, ?_⟩
    intro front hFront hOther
    rw [hFronts front hFront hOther]

end Rpc

end Amarian
