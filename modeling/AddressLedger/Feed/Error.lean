import AddressLedger.Number.Digits

/-!
# Failures of the feed

Why a page does not arrive, and the reason phrases of HTTP status codes.
-/
namespace AddressLedger.Feed

inductive FeedError
  /-- The request was not answered. -/
  | request
  /-- The answer has a status other than success. -/
  | status (code : Nat) (body : String)
  /-- The body of the answer is no page. -/
  | decode
  /-- Shutdown was asked for before the page arrived. -/
  | cancelled
  deriving DecidableEq, Repr

def reasonPhrases : List (Nat × String) := [
  (100, "Continue"), (101, "Switching Protocols"), (102, "Processing"), (200, "OK"),
  (201, "Created"), (202, "Accepted"), (203, "Non Authoritative Information"),
  (204, "No Content"), (205, "Reset Content"), (206, "Partial Content"), (207, "Multi-Status"),
  (208, "Already Reported"), (226, "IM Used"), (300, "Multiple Choices"),
  (301, "Moved Permanently"), (302, "Found"), (303, "See Other"), (304, "Not Modified"),
  (305, "Use Proxy"), (307, "Temporary Redirect"), (308, "Permanent Redirect"),
  (400, "Bad Request"), (401, "Unauthorized"), (402, "Payment Required"), (403, "Forbidden"),
  (404, "Not Found"), (405, "Method Not Allowed"), (406, "Not Acceptable"),
  (407, "Proxy Authentication Required"), (408, "Request Timeout"), (409, "Conflict"),
  (410, "Gone"), (411, "Length Required"), (412, "Precondition Failed"),
  (413, "Payload Too Large"), (414, "URI Too Long"), (415, "Unsupported Media Type"),
  (416, "Range Not Satisfiable"), (417, "Expectation Failed"), (418, "I'm a teapot"),
  (421, "Misdirected Request"), (422, "Unprocessable Entity"), (423, "Locked"),
  (424, "Failed Dependency"), (425, "Too Early"), (426, "Upgrade Required"),
  (428, "Precondition Required"), (429, "Too Many Requests"),
  (431, "Request Header Fields Too Large"), (451, "Unavailable For Legal Reasons"),
  (500, "Internal Server Error"), (501, "Not Implemented"), (502, "Bad Gateway"),
  (503, "Service Unavailable"), (504, "Gateway Timeout"), (505, "HTTP Version Not Supported"),
  (506, "Variant Also Negotiates"), (507, "Insufficient Storage"), (508, "Loop Detected"),
  (510, "Not Extended"), (511, "Network Authentication Required")]

def reasonPhrase (code : Nat) : String :=
  ((reasonPhrases.find? fun entry => entry.1 == code).map Prod.snd).getD "<unknown status code>"

def FeedError.message : FeedError → String
  | request => "Request failed"
  | status code body =>
    "API Error " ++ String.ofList (Number.digitsOf code) ++ " " ++ reasonPhrase code ++ ": " ++ body
  | decode => "Invalid response body"
  | cancelled => "Sync cancelled"

end AddressLedger.Feed
