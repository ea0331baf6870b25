import Keyscan.Keyboard.Key

namespace Keyscan.Key

def names : Vector String 64 := #v[
  "DEL", "RETURN", "CRSR_RIGHT", "F7", "F1", "F3", "F5", "CRSR_DOWN",
  "DIGIT_3", "W", "A", "DIGIT_4", "Z", "S", "E", "LEFT_SHIFT",
  "DIGIT_5", "R", "D", "DIGIT_6", "C", "F", "T", "X",
  "DIGIT_7", "Y", "G", "DIGIT_8", "B", "H", "U", "V",
  "DIGIT_9", "I", "J", "DIGIT_0", "M", "K", "O", "N",
  "PLUS", "P", "L", "MINUS", "PERIOD", "COLON", "AT", "COMMA",
  "POUND", "ASTERISK", "SEMICOLON", "HOME", "RIGHT_SHIFT", "EQUALS", "UP_ARROW", "SLASH",
  "DIGIT_1", "LEFT_ARROW", "CTRL", "DIGIT_2", "SPACE", "COMMODORE", "Q", "RUN_STOP"]

def name (k : Key) : String := names[k.index]

def named? (s : String) : Option Key := all.find? (·.name == s)

end Keyscan.Key
