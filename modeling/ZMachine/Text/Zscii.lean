namespace ZMachine.Zscii

def extras : List Char :=
  ['ä', 'ö', 'ü', 'Ä', 'Ö', 'Ü', 'ß', '»', '«', 'ë', 'ï', 'ÿ', 'Ë', 'Ï', 'á', 'é', 'í', 'ó', 'ú',
   'ý', 'Á', 'É', 'Í', 'Ó', 'Ú', 'Ý', 'à', 'è', 'ì', 'ò', 'ù', 'À', 'È', 'Ì', 'Ò', 'Ù', 'â', 'ê',
   'î', 'ô', 'û', 'Â', 'Ê', 'Î', 'Ô', 'Û', 'å', 'Å', 'ø', 'Ø', 'ã', 'ñ', 'õ', 'Ã', 'Ñ', 'Õ', 'æ',
   'Æ', 'ç', 'Ç', 'þ', 'ð', 'Þ', 'Ð', '£', 'œ', 'Œ', '¡', '¿']

def toChar? (code : UInt16) : Option Char :=
  let n := code.toNat
  if n = 13 then some '\n'
  else if 32 ≤ n ∧ n ≤ 126 then some (Char.ofNat n)
  else if 155 ≤ n then extras[n - 155]?
  else none

def ofChar? (c : Char) : Option UInt16 :=
  if c = '\n' ∨ c = '\r' then some 13
  else if ' ' ≤ c ∧ c ≤ '~' then some (UInt16.ofNat c.toNat)
  else (extras.idxOf? c).map fun i => UInt16.ofNat (155 + i)

def unknown : UInt16 := 63

def newline : UInt16 := 13

end ZMachine.Zscii
