namespace ZMachine

inductive Mnemonic where
  | unassigned | je | jl | jg | decChk | incChk | jin | test | or | and | testAttr | setAttr
  | clearAttr | store | insertObj | loadw | loadb | getProp | getPropAddr | getNextProp | add
  | sub | mul | div | mod | call2s | call2n | setColour | throwFrame | jz | getSibling | getChild
  | getParent | getPropLen | inc | dec | printAddr | call1s | removeObj | printObj | ret | jump
  | printPaddr | load | not | call1n | rtrue | rfalse | print | printRet | nop | save | restore
  | restart | retPopped | pop | catchFrame | quit | newLine | showStatus | verify | piracy
  | callVs | storew | storeb | putProp | sread | aread | printChar | printNum | random | push
  | pull | splitWindow | setWindow | callVs2 | eraseWindow | eraseLine | setCursor | getCursor
  | setTextStyle | bufferMode | outputStream | inputStream | soundEffect | readChar | scanTable
  | callVn | callVn2 | tokenise | encodeText | copyTable | printTable | checkArgCount | logShift
  | artShift | setFont | drawPicture | pictureData | erasePicture | setMargins | saveUndo
  | restoreUndo | printUnicode | checkUnicode | setTrueColour | moveWindow | windowSize
  | windowStyle | getWindProp | scrollWindow | popStack | readMouse | mouseWindow | pushStack
  | putWindProp | printForm | makeMenu | pictureTable | bufferScreen
  deriving DecidableEq

def Mnemonic.name : Mnemonic → String
  | .unassigned => "unassigned"
  | .je => "je"
  | .jl => "jl"
  | .jg => "jg"
  | .decChk => "dec_chk"
  | .incChk => "inc_chk"
  | .jin => "jin"
  | .test => "test"
  | .or => "or"
  | .and => "and"
  | .testAttr => "test_attr"
  | .setAttr => "set_attr"
  | .clearAttr => "clear_attr"
  | .store => "store"
  | .insertObj => "insert_obj"
  | .loadw => "loadw"
  | .loadb => "loadb"
  | .getProp => "get_prop"
  | .getPropAddr => "get_prop_addr"
  | .getNextProp => "get_next_prop"
  | .add => "add"
  | .sub => "sub"
  | .mul => "mul"
  | .div => "div"
  | .mod => "mod"
  | .call2s => "call_2s"
  | .call2n => "call_2n"
  | .setColour => "set_colour"
  | .throwFrame => "throw"
  | .jz => "jz"
  | .getSibling => "get_sibling"
  | .getChild => "get_child"
  | .getParent => "get_parent"
  | .getPropLen => "get_prop_len"
  | .inc => "inc"
  | .dec => "dec"
  | .printAddr => "print_addr"
  | .call1s => "call_1s"
  | .removeObj => "remove_obj"
  | .printObj => "print_obj"
  | .ret => "ret"
  | .jump => "jump"
  | .printPaddr => "print_paddr"
  | .load => "load"
  | .not => "not"
  | .call1n => "call_1n"
  | .rtrue => "rtrue"
  | .rfalse => "rfalse"
  | .print => "print"
  | .printRet => "print_ret"
  | .nop => "nop"
  | .save => "save"
  | .restore => "restore"
  | .restart => "restart"
  | .retPopped => "ret_popped"
  | .pop => "pop"
  | .catchFrame => "catch"
  | .quit => "quit"
  | .newLine => "new_line"
  | .showStatus => "show_status"
  | .verify => "verify"
  | .piracy => "piracy"
  | .callVs => "call_vs"
  | .storew => "storew"
  | .storeb => "storeb"
  | .putProp => "put_prop"
  | .sread => "sread"
  | .aread => "aread"
  | .printChar => "print_char"
  | .printNum => "print_num"
  | .random => "random"
  | .push => "push"
  | .pull => "pull"
  | .splitWindow => "split_window"
  | .setWindow => "set_window"
  | .callVs2 => "call_vs2"
  | .eraseWindow => "erase_window"
  | .eraseLine => "erase_line"
  | .setCursor => "set_cursor"
  | .getCursor => "get_cursor"
  | .setTextStyle => "set_text_style"
  | .bufferMode => "buffer_mode"
  | .outputStream => "output_stream"
  | .inputStream => "input_stream"
  | .soundEffect => "sound_effect"
  | .readChar => "read_char"
  | .scanTable => "scan_table"
  | .callVn => "call_vn"
  | .callVn2 => "call_vn2"
  | .tokenise => "tokenise"
  | .encodeText => "encode_text"
  | .copyTable => "copy_table"
  | .printTable => "print_table"
  | .checkArgCount => "check_arg_count"
  | .logShift => "log_shift"
  | .artShift => "art_shift"
  | .setFont => "set_font"
  | .drawPicture => "draw_picture"
  | .pictureData => "picture_data"
  | .erasePicture => "erase_picture"
  | .setMargins => "set_margins"
  | .saveUndo => "save_undo"
  | .restoreUndo => "restore_undo"
  | .printUnicode => "print_unicode"
  | .checkUnicode => "check_unicode"
  | .setTrueColour => "set_true_colour"
  | .moveWindow => "move_window"
  | .windowSize => "window_size"
  | .windowStyle => "window_style"
  | .getWindProp => "get_wind_prop"
  | .scrollWindow => "scroll_window"
  | .popStack => "pop_stack"
  | .readMouse => "read_mouse"
  | .mouseWindow => "mouse_window"
  | .pushStack => "push_stack"
  | .putWindProp => "put_wind_prop"
  | .printForm => "print_form"
  | .makeMenu => "make_menu"
  | .pictureTable => "picture_table"
  | .bufferScreen => "buffer_screen"

end ZMachine
