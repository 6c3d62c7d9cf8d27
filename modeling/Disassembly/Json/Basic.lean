namespace Disassembly

/-- A JSON document. Numbers are kept as they are spelled. A string whose escapes spell no
Unicode text, because they hold half of a surrogate pair, has no value. -/
inductive Json
  | null
  | bool (value : Bool)
  | number (spelling : String)
  | string (text : Option String)
  | array (elements : List Json)
  | object (fields : List (Option String × Json))

end Disassembly
